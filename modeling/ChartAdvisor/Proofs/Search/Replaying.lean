import ChartAdvisor.Proofs.Search.Completeness
import ChartAdvisor.Proofs.Search.Lasting
import ChartAdvisor.Proofs.Search.Resolution
import Mathlib.Data.List.TakeWhile

/-!
# A draft is determined by its record

A search changes one draft along many branches, takes choices back and copies what it finds. Nothing
is left in what it finds but the choices on record: a fresh draft in which these choices are made
again, in the order of resolution, is the same query. The order may name a property twice; the second
time nothing is left to resolve, except that all marks are tried once more.
-/
namespace ChartAdvisor

/-- The properties in the order in which a search comes to them first. -/
def Config.order (c : Config) : List Property := c.propertyPrecedence.eraseDups

/-- The properties that a search comes to before a property. -/
def Config.before (c : Config) (p : Property) : List Property :=
  c.propertyPrecedence.takeWhile (· != p)

namespace Draft

/-- Makes the choices on record at the spots of a list, one after the other. A spot with nothing on
record is passed by; a choice that is refused ends it. -/
def replay (record : List (String × Choice)) : List Spot → Draft → Attempt Draft
  | [], d => (d, none)
  | s :: rest, d =>
    match (d.nameAt? s).bind fun n => record.lookup n with
    | none => replay record rest d
    | some c =>
      match d.chooseAt s c with
      | (d, none) => replay record rest d
      | (d, some e) => (d, some e)

/-- The spots of a draft in the order in which a search comes to them first. -/
def spotsInOrder (d : Draft) (config : Config) : List Spot := config.order.flatMap d.spots

/-- A search makes no choice for an open slot that lies in a part that is switched off, for the channel
of a constant, and for the channel of a count of rows that is switched off before it comes to channels. -/
def PassesBy (config : Config) (d : Draft) (i : Nat) (p : Property) : Prop :=
  ∃ e, d.encoding? i = some e ∧
    ((∃ r, p.parent? = some r ∧ e.standing r = .absent) ∨
      p = .channel ∧ (e.isValue = true ∨ e.isDisabledAutoCount = true ∧
        (d.slots.slot? i .autoCount = none ∨ .autoCount ∈ config.before .channel)))

end Draft

/-! ## The order -/

theorem Config.not_mem_before_self (config : Config) (p : Property) : p ∉ config.before p := by
  intro hp
  have hne := List.mem_takeWhile_imp hp
  simp at hne

/-- Up to a property the order is what a search comes to before it. -/
theorem Config.exists_split {config : Config} {p : Property} (hp : p ∈ config.propertyPrecedence) :
    ∃ after, config.propertyPrecedence = config.before p ++ p :: after := by
  obtain ⟨as, bs, heq, hnot⟩ := List.eq_append_cons_of_mem hp
  have hbefore : config.before p = as := by
    unfold Config.before
    rw [heq, List.takeWhile_append_of_pos fun q hq => ?_, List.takeWhile_cons_of_neg (by simp),
      List.append_nil]
    simpa using fun e : q = p => hnot (e ▸ hq)
  exact ⟨bs, hbefore ▸ heq⟩

theorem Config.exists_split_order {config : Config} {p : Property} (hp : p ∈ config.propertyPrecedence) :
    ∃ later, config.order = (config.before p).eraseDups ++ p :: later := by
  obtain ⟨after, heq⟩ := exists_split hp
  refine ⟨((after.removeAll (config.before p)).filter (!· == p)).eraseDups, ?_⟩
  have hfirst : (p :: after).removeAll (config.before p) = p :: after.removeAll (config.before p) := by
    simp [List.removeAll, config.not_mem_before_self]
  rw [Config.order, heq, List.eraseDups_append, hfirst, List.eraseDups_cons]

/-- What a property is a part of comes before it, if the configuration is accepted. -/
theorem Config.parent_mem_before {config : Config} (valid : config.validate = .ok ()) {p r : Property}
    (hp : p ∈ config.propertyPrecedence) (hr : p.parent? = some r) : r ∈ config.before p := by
  obtain ⟨after, heq⟩ := exists_split hp
  exact (mem_before_of_beforeParent? (beforeParent?_eq_none valid) heq hr).resolve_left List.not_mem_nil

/-! ## Choices on record -/

namespace Draft

variable {Keeps : Spot → Draft → Prop} {spots : List Spot} {d₀ d c : Draft}

theorem nameAt?_congr {d d' : Draft} (h : d.slots = d'.slots) (s : Spot) : d.nameAt? s = d'.nameAt? s := by
  cases s <;> simp only [nameAt?, h]

/-- Names of which no spot is visited keep what is on record under them. -/
theorem Run.lookup_eq (h : Run Keeps spots d c) (hd : d.Coherent) {n : String}
    (hn : ∀ s ∈ spots, n ∉ d.nameAt? s) : c.assignment.lookup n = d.assignment.lookup n := by
  refine (h.preserves
    (P := fun e => e.Coherent ∧ e.slots = d.slots ∧ e.assignment.lookup n = d.assignment.lookup n)
    ?_ ⟨hd, rfl, rfl⟩).2.2
  rintro s hs v e ⟨he, hslots, hlookup⟩ - taken
  refine ⟨he.chooseAt s v, (alikeApart_chooseAt he taken).slots.symm.trans hslots, ?_⟩
  rw [lookup_chooseAt he taken (nameAt?_congr hslots s ▸ hn s hs), hlookup]

/-- Spots of which nothing is on record yet. -/
def Fresh (spots : List Spot) (d : Draft) : Prop :=
  ∀ s ∈ spots, ∀ n ∈ d.nameAt? s, d.assignment.lookup n = none

theorem Coherent.name_ne {s : Spot} {rest : List Spot} (hd : d.Coherent) (hs : s ∉ rest) {n : String}
    (hn : n ∈ d.nameAt? s) : ∀ t ∈ rest, n ∉ d.nameAt? t :=
  fun _ ht hnt => hs (hd.eq_of_nameAt? hn hnt ▸ ht)

theorem Fresh.chooseAt {s : Spot} {rest : List Spot} (h : Fresh (s :: rest) d) (hd : d.Coherent)
    (hs : s ∉ rest) {v : Choice} (taken : (d.chooseAt s v).2 = none) :
    Fresh rest (d.chooseAt s v).1 := by
  intro t ht n hn
  rw [← nameAt?_congr (alikeApart_chooseAt hd taken).slots] at hn
  rw [lookup_chooseAt hd taken fun hmem => hd.name_ne hs hmem t ht hn]
  exact h t (List.mem_cons_of_mem _ ht) n hn

/-- What a run leads to comes of the choices it has on record. -/
theorem Run.replay (h : Run Keeps spots d c) (hd : d.Coherent) (hnodup : spots.Nodup)
    (fresh : Fresh spots d) : Draft.replay c.assignment spots d = (c, none) := by
  induction h with
  | done => rfl
  | @skip s rest d c passed onward ih =>
    obtain ⟨hs, hrest⟩ := List.nodup_cons.mp hnodup
    have hnone : (d.nameAt? s).bind (fun n => c.assignment.lookup n) = none := by
      rw [Option.bind_eq_none_iff]
      intro n hn
      rw [onward.lookup_eq hd (hd.name_ne hs hn)]
      exact fresh s (List.mem_cons_self ..) n hn
    rw [Draft.replay, hnone]
    exact ih hd hrest fun t ht => fresh t (List.mem_cons_of_mem _ ht)
  | @choose s rest d c choices v offered listed taken kept onward ih =>
    obtain ⟨hs, hrest⟩ := List.nodup_cons.mp hnodup
    obtain ⟨n, hn, -⟩ := assignment_chooseAt hd taken
    have hd' := hd.chooseAt s v
    have hslots := (alikeApart_chooseAt hd taken).slots
    have hsome : (d.nameAt? s).bind (fun n => c.assignment.lookup n) = some v := by
      rw [show d.nameAt? s = some n from hn, Option.bind_some,
        onward.lookup_eq hd' (hd'.name_ne hs (nameAt?_congr hslots s ▸ hn)),
        lookup_chooseAt_self hd taken hn]
    have ih := ih hd' hrest (fresh.chooseAt hd hs taken)
    rw [Draft.replay, hsome]
    rcases hchoose : d.chooseAt s v with ⟨d', error⟩
    rw [hchoose] at taken ih
    obtain rfl : error = none := taken
    simp only [hchoose]
    exact ih

/-- A choice is on record for a spot exactly if the run was offered some when it came there. -/
theorem Run.lookup_isSome_eq {done rest : List Spot} {s : Spot}
    (h : Run Keeps (done ++ s :: rest) d c) (hd : d.Coherent) (hnodup : (done ++ s :: rest).Nodup)
    (fresh : Fresh (done ++ s :: rest) d) {n : String} (hn : n ∈ d.nameAt? s) :
    ∃ e, Run Keeps done d e ∧ Run Keeps (s :: rest) e c ∧
      (c.assignment.lookup n).isSome = (e.choicesAt? s).isSome := by
  obtain ⟨e, hdone, honward⟩ := Run.append_iff.mp h
  refine ⟨e, hdone, honward, ?_⟩
  obtain ⟨-, hrest, hacross⟩ := List.nodup_append.mp hnodup
  obtain ⟨he, hslots, -⟩ := hdone.frame hd
  have hs : s ∉ rest := (List.nodup_cons.mp hrest).1
  have hne : n ∈ e.nameAt? s := nameAt?_congr hslots s ▸ hn
  cases honward with
  | skip passed onward =>
    rw [passed, onward.lookup_eq he (he.name_ne hs hne), hdone.lookup_eq hd,
      fresh s (by simp) n hn]
    · rfl
    · exact hd.name_ne (fun hmem => hacross s hmem s (List.mem_cons_self ..) rfl) hn
  | choose offered listed taken kept onward =>
    rename_i v
    have hslots' := (alikeApart_chooseAt he taken).slots
    rw [offered, onward.lookup_eq (he.chooseAt s v)
      ((he.chooseAt s v).name_ne hs (nameAt?_congr hslots' s ▸ hne)), lookup_chooseAt_self he taken hne]
    rfl

/-! ## How slots stand on the way -/

/-- A slot stands as before while no choice is made for it, or for the part in which it lies. -/
theorem Run.standing_eq (h : Run Keeps spots d c) (hd : d.Coherent) {i : Nat} {q : Property}
    (hq : .slot i q ∉ spots) (hparent : ∀ r, q.parent? = some r → .slot i r ∉ spots) {a b : Encoding}
    (ha : d.encoding? i = some a) (hb : c.encoding? i = some b) : b.standing q = a.standing q := by
  obtain ⟨-, b', hb', hstanding⟩ := h.preserves
    (P := fun e => e.Coherent ∧ ∃ b, e.encoding? i = some b ∧ b.standing q = a.standing q)
    (fun s hs v e ⟨he, b, hb, hstanding⟩ _ taken => by
      obtain ⟨b', hb', heq⟩ := (alikeApart_chooseAt he taken).symm.standing_of_ne
        (fun heq => hq (heq ▸ hs)) (fun r heq hr => hparent r hr (heq ▸ hs)) hb
      exact ⟨he.chooseAt s v, b', hb', heq.trans hstanding⟩)
    ⟨hd, a, ha, rfl⟩
  obtain rfl := Option.some.inj (hb'.symm.trans hb)
  exact hstanding

/-- A slot that was open when the draft was built is open until a choice is made for it, unless the
part in which it lies has been switched off. -/
theorem Run.open_or_below (h : Run Keeps spots d c) (hd : d.Coherent) {i : Nat} {p : Property}
    (hp : .slot i p ∉ spots) {o a : Encoding} (ho : d.origin.encodings[i]? = some o)
    (hopen : o.isOpen p = true) (ha : d.encoding? i = some a) (hstart : a.standing p = .undecided) :
    ∃ b, c.encoding? i = some b ∧
      (b.standing p = .undecided ∨ ∃ r, p.parent? = some r ∧ b.standing r = .absent) := by
  refine (h.preserves (P := fun e => (e.Coherent ∧ e.origin = d.origin) ∧ ∃ b, e.encoding? i = some b ∧
      (b.standing p = .undecided ∨ ∃ r, p.parent? = some r ∧ b.standing r = .absent))
    ?_ ⟨⟨hd, rfl⟩, a, ha, .inl hstart⟩).2
  rintro s hs v e ⟨⟨he, horigin⟩, b, hb, hb'⟩ - taken
  have hap := alikeApart_chooseAt he taken
  refine ⟨⟨he.chooseAt s v, hap.origin.symm.trans horigin⟩, ?_⟩
  by_cases hparent : ∃ r, p.parent? = some r ∧ s = .slot i r
  · -- the part itself is switched
    obtain ⟨r, hr, rfl⟩ := hparent
    obtain ⟨b₀, o', hb₀, ho', hk, hnone, hafter⟩ := encoding_chooseAt he taken
    obtain rfl := Option.some.inj (hb.symm.trans hb₀)
    obtain rfl : o = o' := Option.some.inj (ho.symm.trans (horigin ▸ ho'))
    refine ⟨_, hafter, ?_⟩
    have hchild := Encoding.standing_choose_child hk hr hnone
    have hswitch := Encoding.standing_choose hnone
    by_cases hv : v = .flag true
    · exact .inl (hchild.trans ((if_pos hv).trans ((o.isOpen_iff p).mp hopen)))
    · refine .inr ⟨r, hr, hswitch.trans ?_⟩
      have hpart : r = .bin ∨ r = .scale := by cases p <;> simp_all [Property.parent?]
      rcases hpart with rfl | rfl <;> exact if_neg hv
  · -- neither the slot nor the part is touched
    have htouch {q : Property} (hq : s ≠ .slot i q) (hqp : ∀ t, s = .slot i t → q.parent? ≠ some t) :
        ∃ b', (e.chooseAt s v).1.encoding? i = some b' ∧ b'.standing q = b.standing q :=
      hap.symm.standing_of_ne hq hqp hb
    obtain ⟨b', hb'', hsame⟩ := htouch (q := p) (fun heq => hp (heq ▸ hs))
      (fun t heq hr => hparent ⟨t, hr, heq⟩)
    rcases hb' with hundecided | ⟨r, hr, habsent⟩
    · exact ⟨b', hb'', .inl (hsame.trans hundecided)⟩
    · obtain ⟨b₂, hb₂, hsame₂⟩ := htouch (q := r) (fun heq => hparent ⟨r, hr, heq⟩)
        (fun t _ => by simp [Property.parent?_parent? hr])
      obtain rfl := Option.some.inj (hb₂.symm.trans hb'')
      exact ⟨b₂, hb₂, .inr ⟨r, hr, hsame₂.trans habsent⟩⟩

/-! ## Marks that are tried again -/

/-- A draft that comes of listed choices, whatever the rules say. -/
abbrev Reached : List Spot → Draft → Draft → Prop := Run fun _ _ => True

theorem Explored.reached {ctx : Context} (h : Explored ctx spots d c) : Reached spots d c :=
  Run.strengthen h fun _ _ _ _ _ _ _ _ _ _ _ _ _ => trivial

theorem choicesAt?_setMark (d : Draft) (m : Mark) (s : Spot) :
    (d.setMark m).1.choicesAt? s = d.choicesAt? s := by
  unfold setMark
  cases hk : d.slots.mark <;> cases s <;> rfl

/-- A choice in an encoding and one of the mark may come in either order. -/
theorem assign_setMark (hd : d.Coherent) {i : Nat} {p : Property} {v : Choice}
    (taken : (d.assign i p v).2 = none) (m : Mark) :
    (d.setMark m).1.assign i p v = (((d.assign i p v).1.setMark m).1, none) := by
  obtain ⟨s, e, o, after, hs, he, ho, hchoose, heq⟩ := assign_eq_none hd taken
  unfold setMark
  rw [heq]
  cases hk : d.slots.mark with
  | none => simp only [hk, putEncoding, heq]
  | some k =>
    have hne : s.name ≠ k.name := by
      intro hname
      have hslot : s.name ∈ d.nameAt? (.slot i p) := by simp [nameAt?, hs]
      have hmark : s.name ∈ d.nameAt? .mark := by simp [nameAt?, hk, hname]
      exact Spot.noConfusion (hd.eq_of_nameAt? hslot hmark)
    have hassign := assign_eq (d := (d.setMark m).1) (s := s) (e := e) (o := o)
      (by unfold setMark; rw [hk]; exact hs) (by unfold setMark; rw [hk]; exact he)
      (by unfold setMark; rw [hk]; exact ho) v
    unfold setMark at hassign
    rw [hk, hchoose] at hassign
    simp only [hk, putEncoding] at hassign ⊢
    rw [hassign, Table.insert_comm hd.recorded hne]

/-- A run that does not come to the mark may start with another one. -/
theorem Run.setMark (h : Run Keeps spots d c) (hd : d.Coherent) (hmark : .mark ∉ spots) (m : Mark) :
    Reached spots (d.setMark m).1 (c.setMark m).1 := by
  induction h with
  | done d => exact .done _
  | skip passed _ ih =>
    refine .skip ?_ (ih hd fun h => hmark (List.mem_cons_of_mem _ h))
    rw [choicesAt?_setMark, passed]
  | @choose s rest d c choices v offered listed taken kept onward ih =>
    cases s with
    | mark => exact absurd (List.mem_cons_self ..) hmark
    | slot i p =>
      have hassign : (d.setMark m).1.chooseAt (.slot i p) v = _ := assign_setMark hd taken m
      refine .choose (c := v) (by rw [choicesAt?_setMark, offered]) listed (by rw [hassign]) trivial ?_
      rw [hassign]
      exact ih (hd.chooseAt _ v) fun h => hmark (List.mem_cons_of_mem _ h)

/-- Of two marks that are chosen one after the other only the second one is left. -/
theorem setMark_setMark (hd : d.Coherent) (m m' : Mark) :
    ((d.setMark m).1.setMark m').1 = (d.setMark m').1 := by
  unfold setMark
  cases hk : d.slots.mark with
  | none => simp only [hk]
  | some k => simp only [hk, Table.insert_insert hd.recorded]

/-- A run may be led to another mark. -/
theorem Run.chooseMark (h : Reached spots d c) (hd : d.Coherent) (hnodup : spots.Nodup)
    (hmark : .mark ∈ spots) {c' : Draft} (hc' : Reached [.mark] c c') : Reached spots d c' := by
  obtain ⟨done, rest, rfl⟩ := List.append_of_mem hmark
  obtain ⟨e, hdone, honward⟩ := Run.append_iff.mp h
  refine Run.append_iff.mpr ⟨e, hdone, ?_⟩
  have hrest : .mark ∉ rest := (List.nodup_cons.mp (List.nodup_append.mp hnodup).2.1).1
  have he := (hdone.frame hd).1
  cases hc' with
  | skip passed onward =>
    cases onward
    exact honward
  | choose offered listed taken kept onward =>
    rename_i choices v
    cases onward
    have hslots := (honward.frame he).2.1
    rw [show c.choicesAt? .mark = c.slots.mark.map fun k => k.values.map toChoice from rfl, hslots]
      at offered
    have offered' : e.choicesAt? .mark = some choices := offered
    obtain ⟨k, hk, rfl⟩ := Option.map_eq_some_iff.mp offered
    obtain ⟨m, hm, rfl⟩ := List.mem_map.mp listed
    have htaken : (e.chooseAt .mark (.mark m)).2 = none := by
      rw [chooseAt_mark]
      unfold Draft.setMark
      rw [hk]
    refine .choose offered' listed htaken trivial ?_
    cases honward with
    | skip passed _ => rw [passed] at offered'; contradiction
    | choose offered₁ listed₁ taken₁ kept₁ onward₁ =>
      rename_i choices₁ v₁
      obtain rfl := Option.some.inj (offered'.symm.trans offered₁)
      obtain ⟨m₁, -, rfl⟩ := List.mem_map.mp listed₁
      have hrun := onward₁.setMark (he.chooseAt .mark _) hrest m
      rw [show (e.chooseAt .mark (toChoice m₁)).1 = (e.setMark m₁).1 from rfl, setMark_setMark he] at hrun
      exact hrun

/-- A walk through one spot that comes once more finds what comes of the copy there. -/
theorem Twin.walkSpots_again {ctx : Context} {f : Draft} {s : Spot} (h : Twin [] f c)
    (hn : (walkSpots ctx [s] f).failure = none) :
    ∀ f' ∈ (walkSpots ctx [s] f).found, ∃ c', Twin [] f' c' ∧ Explored ctx [s] c c' := by
  cases hc : c.choicesAt? s with
  | none =>
    rw [walkSpots_of_passed ((h.alike.choicesAt?_eq s).trans hc)]
    intro f' hf
    obtain rfl := List.mem_singleton.mp hf
    exact ⟨c, h, .skip hc (.done c)⟩
  | some choices =>
    obtain ⟨_, rfl, htried, -, hfound, -⟩ :=
      walkSpots_of_offered ((h.alike.choicesAt?_eq s).trans hc) hn
    have step (v : Choice) (e : Draft) (he : Sibling s [] e c) :
        Matches (tryInPlace ctx s (walkSpots ctx []) v e) (tryOnCopy ctx s (copySearch ctx []) c v)
          (Sibling s [] · c) :=
      tryInPlace_matches (fun _ ht => absurd ht List.not_mem_nil) v (fun d' _ htwin =>
        walkSpots_matches ctx [] .nil d' _ htwin fun _ ht => absurd ht List.not_mem_nil) e he
    obtain ⟨copies, hcopies, htwins, -⟩ :=
      tryAll_matches step choices f (h.pending [s]).sibling htried
    have hsearch : copySearch ctx [s] c = .ok copies := by rw [copySearch, hc]; exact hcopies
    intro f' hf
    rw [hfound] at hf
    obtain ⟨c', hc', htwin⟩ := exists_of_forall₂ htwins hf
    exact ⟨c', htwin, (mem_copySearch_iff hsearch c').mp hc'⟩

/-! ## What a search finds is retraced -/

variable {ctx : Context} {seen : List Property} {p : Property} {f : Draft}

/-- A walk has nothing to do for a property that is settled. -/
theorem walk_of_settled (h : d.Settled p) (hp : p ≠ .mark) : d.walk ctx p = .keep d := by
  have passed : ∀ s ∈ d.spots p, d.choicesAt? s = none := by
    intro s hs
    have hsettled := h s (property_of_mem_spots hs)
    rw [mem_spots_iff, if_neg hp] at hs
    obtain ⟨i, -, rfl⟩ := hs
    exact choicesAt?_slot_eq_none_iff.mpr hsettled
  rw [walk_eq_walkSpots]
  generalize d.spots p = spots at passed
  induction spots with
  | nil => rfl
  | cons s rest ih =>
    rw [walkSpots_of_passed (passed s (List.mem_cons_self ..))]
    exact ih fun t ht => passed t (List.mem_cons_of_mem _ ht)

/-- A draft on the course of a search, beside a copy to which its choices alone lead. -/
structure Retraced (d₀ : Draft) (seen : List Property) (f : Draft) : Prop where
  course : OnCourse d₀ seen f
  nullFree : f.Throughout Encoding.NullFree
  run : ∃ c, Twin [] f c ∧ Reached (seen.eraseDups.flatMap d₀.spots) d₀ c

theorem Retraced.walk (h₀ : d₀.Coherent) (built : ∀ s, d₀.InPlace s)
    (parents : ∀ q ∈ seen, q.parent? = some p → p ∈ seen) (h : Retraced d₀ seen d)
    (hn : (d.walk ctx p).failure = none) (hf : f ∈ (d.walk ctx p).found) :
    Retraced d₀ (seen ++ [p]) f where
  course := h.course.walk parents hn hf
  nullFree := (((Throughout.walk Encoding.lasting_nullFree p ⟨h.course.comes, h.nullFree⟩).leaves hn).2
    f hf).2
  run := by
    obtain ⟨c, htwin, hrun⟩ := h.run
    rw [eraseDups_concat]
    split
    · next hseen =>
      have hseen := List.contains_iff_mem.mp hseen
      by_cases hp : p = .mark
      · subst hp
        rw [walk_eq_walkSpots, show d.spots .mark = [.mark] from rfl] at hn hf
        obtain ⟨c', htwin', hagain⟩ := htwin.walkSpots_again hn f hf
        refine ⟨c', htwin', hrun.chooseMark h₀ (nodup_spots d₀ (nodup_eraseDups seen)) ?_ hagain.reached⟩
        exact List.mem_flatMap.mpr ⟨.mark, List.mem_eraseDups.mpr hseen, List.mem_singleton_self _⟩
      · rw [walk_of_settled (h.course.settled p hseen) hp] at hf
        rw [List.mem_singleton.mp hf]
        exact ⟨c, htwin, hrun⟩
    · next hseen =>
      have hseen : p ∉ seen := fun hmem => hseen (List.contains_iff_mem.mpr hmem)
      have order : ∀ q ∈ seen.eraseDups, q ≠ p ∧ q.parent? ≠ some p := by
        intro q hq
        have hq := List.mem_eraseDups.mp hq
        exact ⟨fun heq => hseen (heq ▸ hq), fun hparent => hseen (parents q hq hparent)⟩
      obtain ⟨copies, htwins, hcopies⟩ := htwin.walk h₀ built order hrun hn
      obtain ⟨c', hc', htwin'⟩ := exists_of_forall₂ htwins hf
      refine ⟨c', htwin', ?_⟩
      rw [List.flatMap_append, List.flatMap_singleton]
      exact Run.append_iff.mpr ⟨c, hrun, Explored.reached ((hcopies c').mp hc')⟩

/-- Whatever a search finds without styling it, a run leads to a draft that is the same. -/
theorem retraced_of_generate {q : ChartQuery} {drafts : List Draft}
    (valid : ctx.config.validate = .ok ()) (plain : ctx.config.stylize = false)
    (free : ∀ e ∈ q.encodings, e.NullFree) (h : (generate q ctx).outcome = .ok drafts) :
    ∃ d₀, build q ctx.schema ctx.config = .ok d₀ ∧
      ∀ d ∈ drafts, ∃ c, d.Same c ∧ d.slots = c.slots ∧
        Reached (d₀.spotsInOrder ctx.config) d₀ c := by
  obtain ⟨d₀, steps, found, hb, hsteps, hfound, hstyled⟩ := generate_eq_ok h
  have hbuilt := isBuilt_of_build hb
  have hfree : d₀.Throughout Encoding.NullFree :=
    hbuilt.throughout (fun e he _ => (free e he).fill _) (.of_kind nofun)
  have hstart : ∀ d ∈ [d₀], Retraced d₀ [] d := by
    intro d hd
    obtain rfl := List.mem_singleton.mp hd
    exact ⟨⟨⟨hbuilt.sourced, rfl, rfl⟩, fun _ _ he _ => he, fun _ hp => absurd hp List.not_mem_nil⟩,
      hfree, d, .refl hbuilt.coherent [], .done d⟩
  have hwalk (before : List Property) (p : Property) (after : List Property)
      (hsplit : [] ++ steps = before ++ p :: after) (d : Draft) (hd : Retraced d₀ before d)
      (hn : (d.walk ctx p).failure = none) (f : Draft) (hf : f ∈ (d.walk ctx p).found) :
      Retraced d₀ (before ++ [p]) f :=
    hd.walk hbuilt.coherent hbuilt.inPlace
      ((partsAfter_of_validate valid hsteps).mem_of_parent? hsplit) hn hf
  have hretraced := resolveAll_found _ hwalk hstart hfound
  refine ⟨d₀, hb, fun d hd => ?_⟩
  obtain ⟨f, hf, rfl | ⟨hstylize, -⟩⟩ := hstyled d hd
  · obtain ⟨-, hnull, c, htwin, hrun⟩ := hretraced f hf
    rw [steps_eq_ok hsteps, List.nil_append, eraseDups_filter] at hrun
    have hrun := (run_filter_has_iff hbuilt.coherent rfl).mp hrun
    exact ⟨c, htwin.same hnull.query
      (hrun.throughout Encoding.lasting_nullFree hbuilt.coherent hfree).query, htwin.alike.slots, hrun⟩
  · rw [plain] at hstylize
    contradiction

/-! ## What is on record -/

variable {config : Config} {i : Nat} {k : Candidates Choice}

/-- What a search comes to before a slot and after it, in the same encoding. -/
theorem exists_split_spots (hp : p ∈ config.propertyPrecedence) (hs : .slot i p ∈ d.spots p) :
    ∃ done rest, d.spotsInOrder config = done ++ .slot i p :: rest ∧
      (∀ q ∈ config.before p, .slot i q ∉ rest) ∧ ∀ q, .slot i q ∈ done → q ∈ config.before p := by
  obtain ⟨later, horder⟩ := Config.exists_split_order hp
  obtain ⟨as, bs, heq⟩ := List.append_of_mem hs
  have hown {q : Property} (h : .slot i q ∈ as ++ .slot i p :: bs) : q = p := by
    rw [← heq] at h
    exact property_of_mem_spots h
  have hnodup : config.order.Nodup := nodup_eraseDups _
  rw [horder] at hnodup
  obtain ⟨-, hrest, hacross⟩ := List.nodup_append.mp hnodup
  refine ⟨(config.before p).eraseDups.flatMap d.spots ++ as, bs ++ later.flatMap d.spots, ?_, ?_, ?_⟩
  · simp only [spotsInOrder, horder, List.flatMap_append, List.flatMap_cons, heq, List.append_assoc,
      List.cons_append]
  · intro q hq hmem
    have hq := List.mem_eraseDups.mpr hq
    rcases List.mem_append.mp hmem with hmem | hmem
    · obtain rfl := hown (List.mem_append_right _ (List.mem_cons_of_mem _ hmem))
      exact hacross _ hq _ (List.mem_cons_self ..) rfl
    · obtain ⟨r, hr, hmem⟩ := List.mem_flatMap.mp hmem
      obtain rfl : q = r := property_of_mem_spots hmem
      exact hacross _ hq _ (List.mem_cons_of_mem _ hr) rfl
  · intro q hmem
    rcases List.mem_append.mp hmem with hmem | hmem
    · obtain ⟨r, hr, hmem⟩ := List.mem_flatMap.mp hmem
      obtain rfl : q = r := property_of_mem_spots hmem
      exact List.mem_eraseDups.mp hr
    · have hspots : (d.spots p).Nodup := (hosts_spots d p).imp fun h e => h (by rw [e])
      rw [heq] at hspots
      have hne := (List.nodup_append.mp hspots).2.2 _ hmem _ (List.mem_cons_self ..)
      exact absurd (by rw [hown (List.mem_append_left _ hmem)]) hne

/-- A slot as a search comes to it: a run leads from a built draft `d₀` through what comes before the
slot to a draft `d`, and goes on from there to a draft `c`. -/
structure Visit (config : Config) (d₀ : Draft) (i : Nat) (p : Property) (done rest : List Spot)
    (d c : Draft) : Prop where
  coherent : d₀.Coherent
  asBuilt : d₀.query = d₀.origin
  opened : (d₀.slots.slot? i p).isSome
  split : d₀.spotsInOrder config = done ++ .slot i p :: rest
  before : Reached done d₀ d
  after : Reached (.slot i p :: rest) d c
  earlier : ∀ q, .slot i q ∈ done → q ∈ config.before p
  later : ∀ q ∈ config.before p, .slot i q ∉ rest

namespace Visit

variable {done rest : List Spot} (h : Visit config d₀ i p done rest d c)
include h

theorem opened_origin {q : Property} (hq : (d₀.slots.slot? i q).isSome) :
    ∃ o, d₀.origin.encodings[i]? = some o ∧ o.isOpen q = true := by
  rw [h.coherent.opened, Option.any_eq_true] at hq
  exact hq

/-- The encoding when it is visited and in the end, of the kind of the one that was built. -/
theorem encodings {o : Encoding} (ho : d₀.origin.encodings[i]? = some o) :
    ∃ a b, d.encoding? i = some a ∧ c.encoding? i = some b ∧ a.kind = o.kind ∧ b.kind = o.kind := by
  obtain ⟨hd, -, horigin⟩ := h.before.frame h.coherent
  obtain ⟨hc, -, horigin'⟩ := h.after.frame hd
  rw [← horigin] at ho
  obtain ⟨a, ha⟩ := hd.exists_encoding ho
  obtain ⟨b, hb⟩ := hc.exists_encoding (horigin' ▸ ho)
  exact ⟨a, b, ha, hb, hd.kind_eq ha ho, hc.kind_eq hb (horigin' ▸ ho)⟩

/-- What was visited before the slot, or is not visited at all, is in the end as it was then. -/
theorem standing_eq {q : Property} (top : q.parent? = none) (hqp : q ≠ p)
    (hq : q ∈ config.before p ∨ d₀.slots.slot? i q = none) {a b : Encoding}
    (ha : d.encoding? i = some a) (hb : c.encoding? i = some b) : b.standing q = a.standing q := by
  refine h.after.standing_eq (h.before.frame h.coherent).1 (fun hmem => ?_)
    (fun r hr => by rw [top] at hr; contradiction) ha hb
  rcases List.mem_cons.mp hmem with heq | hmem
  · exact hqp (Spot.slot.inj heq).2
  rcases hq with hq | hq
  · exact h.later q hq hmem
  · have hlisted : Spot.slot i q ∈ d₀.spotsInOrder config := by
      rw [h.split]
      exact List.mem_append_right _ (List.mem_cons_of_mem _ hmem)
    obtain ⟨r, -, hr⟩ := List.mem_flatMap.mp hlisted
    obtain ⟨j, hj, heq⟩ : ∃ j ∈ d₀.slots.indices r, Spot.slot i q = .slot j r := by
      rw [mem_spots_iff] at hr
      split at hr
      · contradiction
      · exact hr
    obtain ⟨rfl, rfl⟩ := Spot.slot.inj heq
    have hsome : (d₀.slots.slot? i q).isSome := (List.mem_filter.mp hj).2
    rw [hq] at hsome
    contradiction

/-- What is not visited before the slot is open there as it was built, or lies in a part that is
switched off. -/
theorem open_or_below {q : Property} (hq : q ∉ config.before p)
    (hopened : (d₀.slots.slot? i q).isSome) {a : Encoding} (ha : d.encoding? i = some a) :
    a.standing q = .undecided ∨ ∃ r, q.parent? = some r ∧ a.standing r = .absent := by
  obtain ⟨o, ho, hopen⟩ := h.opened_origin hopened
  have hstart : d₀.encoding? i = some o := by
    unfold encoding?
    rw [h.asBuilt, ho]
  obtain ⟨a', ha', hstanding⟩ := h.before.open_or_below h.coherent (fun hmem => hq (h.earlier q hmem)) ho
    hopen hstart ((o.isOpen_iff q).mp hopen)
  obtain rfl := Option.some.inj (ha'.symm.trans ha)
  exact hstanding

/-- A count of rows that is off when the search comes to its channel is one that was built so, or that
was switched off before, and it is off in the end. -/
theorem isDisabledAutoCount_iff (hp : p = .channel) {a b : Encoding} (ha : d.encoding? i = some a)
    (hb : c.encoding? i = some b) (hkind : a.kind = b.kind) :
    a.isDisabledAutoCount = true ↔ b.isDisabledAutoCount = true ∧
      (d₀.slots.slot? i .autoCount = none ∨ .autoCount ∈ config.before p) := by
  subst hp
  by_cases hknown : d₀.slots.slot? i .autoCount = none ∨ .autoCount ∈ config.before .channel
  · have hstanding := h.standing_eq (q := .autoCount) rfl nofun hknown.symm ha hb
    rw [Encoding.isDisabledAutoCount_eq, Encoding.isDisabledAutoCount_eq, hkind, hstanding]
    simp [hknown]
  · obtain ⟨hslot, hbefore⟩ := not_or.mp hknown
    have hopen := (h.open_or_below hbefore (Option.isSome_iff_ne_none.mpr hslot) ha).resolve_right
      (by simp [Property.parent?])
    rw [Encoding.isDisabledAutoCount_eq, hopen]
    simp [hknown]

/-- Nothing is offered for the slot exactly if the search passes it by for one of its reasons. -/
theorem choicesAt?_eq_none_iff (valid : config.validate = .ok ()) (hp : p ∈ config.propertyPrecedence) :
    d.choicesAt? (.slot i p) = none ↔ PassesBy config c i p := by
  obtain ⟨o, ho, hopen⟩ := h.opened_origin h.opened
  obtain ⟨a, b, ha, hb, hak, hbk⟩ := h.encodings ho
  have hslots : c.slots = d₀.slots := by
    obtain ⟨hd, hds, -⟩ := h.before.frame h.coherent
    exact (h.after.frame hd).2.1.trans hds
  have hparent (r : Property) (hr : p.parent? = some r) : b.standing r = a.standing r := by
    have hbefore := Config.parent_mem_before valid hp hr
    refine h.standing_eq (Property.parent?_parent? hr) (fun heq => ?_) (.inl hbefore) ha hb
    exact config.not_mem_before_self p (heq ▸ hbefore)
  have hstanding : a.standing p = .undecided ↔ ¬∃ r, p.parent? = some r ∧ b.standing r = .absent := by
    constructor
    · rintro hundecided ⟨r, hr, habsent⟩
      exact Encoding.standing_parent_ne hr ((a.isOpen_iff p).mpr hundecided) (hparent r hr ▸ habsent)
    · intro hpart
      refine (h.open_or_below (config.not_mem_before_self p) h.opened ha).resolve_right ?_
      rintro ⟨r, hr, habsent⟩
      exact hpart ⟨r, hr, (hparent r hr).trans habsent⟩
  have hfrozen : a.isFrozen = true ↔ p = .channel ∧ (b.isValue = true ∨ b.isDisabledAutoCount = true ∧
      (d₀.slots.slot? i .autoCount = none ∨ .autoCount ∈ config.before .channel)) := by
    have hab : a.kind = b.kind := hak.trans hbk.symm
    rw [Encoding.isFrozen, Bool.or_eq_true, Encoding.isValue_eq, Encoding.isValue_eq, hab]
    by_cases hchannel : p = .channel
    · rw [h.isDisabledAutoCount_iff hchannel ha hb hab, hchannel]
      simp only [true_and]
    · -- only the switch of a count of rows is open besides a channel, where there is a channel alone
      have hopen' : o.kind = .field ∨ o.kind = .autoCount ∧ p = .autoCount := by
        cases o <;> simp_all [Encoding.isOpen, Encoding.kind]
      rcases hopen' with hfield | ⟨hcount, rfl⟩
      · simp [Encoding.isDisabledAutoCount_eq, hak, hbk, hfield, hchannel]
      · have hundecided := (h.open_or_below (config.not_mem_before_self _) h.opened ha).resolve_right
          (by simp [Property.parent?])
        simp [Encoding.isDisabledAutoCount_eq, hundecided, hbk, hcount]
  rw [choicesAt?_slot_eq_none_iff, PassesBy, hslots]
  simp only [ha, hb, Option.some.injEq, forall_eq', exists_eq_left']
  rw [← hfrozen]
  cases hf : a.isFrozen with
  | false => simp [hstanding]
  | true => simp

end Visit

/-! ## Replaying -/

/-- A built draft has no choice on record. -/
theorem IsBuilt.fresh {q : ChartQuery} {schema : Schema} (h : IsBuilt q schema config d)
    (spots : List Spot) : Fresh spots d := by
  intro s _ n _
  rw [h.assignment_eq]
  rfl

section Record

variable {q : ChartQuery} {schema : Schema} (hb : IsBuilt q schema config d₀)
  (valid : config.validate = .ok ()) (h : Reached (d₀.spotsInOrder config) d₀ c)
include hb valid h

/-- A mark that was open is on record. -/
theorem Run.recorded_mark {k : Candidates Mark} (hk : d₀.slots.mark = some k) :
    (c.assignment.lookup k.name).isSome := by
  have hmark : Property.mark ∈ config.order :=
    List.mem_eraseDups.mpr (Config.mem_propertyPrecedence valid (by decide))
  have hspot : Spot.mark ∈ d₀.spotsInOrder config :=
    List.mem_flatMap.mpr ⟨.mark, hmark, List.mem_singleton_self _⟩
  obtain ⟨done, rest, hsplit⟩ := List.append_of_mem hspot
  have hnodup := nodup_spots d₀ (nodup_eraseDups config.propertyPrecedence)
  rw [hsplit] at h
  obtain ⟨e, hdone, -, heq⟩ := h.lookup_isSome_eq hb.coherent (hsplit ▸ hnodup) (hb.fresh _)
    (show k.name ∈ d₀.nameAt? .mark by simp [nameAt?, hk])
  rw [heq, choicesAt?, (hdone.frame hb.coherent).2.1, hk]
  rfl

/-- Of the slots that were open those are on record that the search does not pass by. -/
theorem Run.recorded_iff (hk : d₀.slots.slot? i p = some k) :
    (c.assignment.lookup k.name).isSome = true ↔ ¬PassesBy config c i p := by
  have hopened : (d₀.slots.slot? i p).isSome := by rw [hk]; rfl
  obtain ⟨o, ho, hopen⟩ : ∃ o, d₀.origin.encodings[i]? = some o ∧ o.isOpen p = true := by
    rw [hb.coherent.opened, Option.any_eq_true] at hopened
    exact hopened
  have hp := o.mem_precedence_of_isOpen hopen
  have hlisted := Config.mem_propertyPrecedence valid hp
  have hspot : .slot i p ∈ d₀.spots p := by
    rw [mem_spots_iff, if_neg fun hmark => ?_]
    · exact ⟨i, hb.coherent.mem_indices ho hopen, rfl⟩
    · rw [hmark, o.isOpen_iff] at hopen
      exact o.standing_mark_ne hopen
  obtain ⟨done, rest, hsplit, hlater, hearlier⟩ := exists_split_spots hlisted hspot
  have hnodup := nodup_spots d₀ (nodup_eraseDups config.propertyPrecedence)
  rw [hsplit] at h
  obtain ⟨d, hdone, honward, heq⟩ := h.lookup_isSome_eq hb.coherent (hsplit ▸ hnodup) (hb.fresh _)
    (show k.name ∈ d₀.nameAt? (.slot i p) by simp [nameAt?, hk])
  have visit : Visit config d₀ i p done rest d c :=
    ⟨hb.coherent, hb.query_eq, hopened, hsplit, hdone, honward, hearlier, hlater⟩
  rw [heq, Option.isSome_iff_ne_none, Ne, visit.choicesAt?_eq_none_iff valid hlisted]

end Record

/-- Whatever a search finds is determined by its record. If nothing is styled and no scale has a fixed
domain or range at null, then a fresh draft takes all choices on record, in the order of resolution, and
becomes the same query with the same channels in use. On record are the mark, if it was open, and all
open slots but those that the search passes by. -/
theorem generate_replays {q : ChartQuery} {drafts : List Draft} (valid : ctx.config.validate = .ok ())
    (plain : ctx.config.stylize = false) (free : ∀ e ∈ q.encodings, e.NullFree)
    (h : (generate q ctx).outcome = .ok drafts) :
    ∃ d₀, build q ctx.schema ctx.config = .ok d₀ ∧ ∀ d ∈ drafts,
      (∃ r, replay d.assignment (d₀.spotsInOrder ctx.config) d₀ = (r, none) ∧ r.query = d.query ∧
        (∀ c, r.channelUsed c = d.channelUsed c) ∧ r.assignment = d.assignment) ∧
      (∀ k, d₀.slots.mark = some k → (d.assignment.lookup k.name).isSome = true) ∧
      ∀ i p k, d₀.slots.slot? i p = some k →
        ((d.assignment.lookup k.name).isSome = true ↔ ¬PassesBy ctx.config d i p) := by
  obtain ⟨d₀, hb, hfound⟩ := retraced_of_generate valid plain free h
  have hbuilt := isBuilt_of_build hb
  refine ⟨d₀, hb, fun d hd => ?_⟩
  obtain ⟨c, ⟨hquery, hassignment, hchannels⟩, hslots, hrun⟩ := hfound d hd
  have hsame (i : Nat) (p : Property) : PassesBy ctx.config d i p ↔ PassesBy ctx.config c i p := by
    unfold PassesBy encoding?
    rw [hquery, hslots]
  rw [hassignment]
  refine ⟨⟨c, ?_, hquery.symm, fun ch => (hchannels ch).symm, rfl⟩,
    fun k hk => hrun.recorded_mark hbuilt valid hk, fun i p k hk => ?_⟩
  · exact hrun.replay hbuilt.coherent (nodup_spots d₀ (nodup_eraseDups _)) (hbuilt.fresh _)
  · rw [hsame]
    exact hrun.recorded_iff hbuilt valid hk

/-- Bins of both numbers and no bins are found, and each of them comes of its record. -/
theorem generate_replays_openBin :
    ∃ drafts d₀, (generate openBin ⟨oneField, { stylize := false }⟩).outcome = .ok drafts ∧
      drafts.length = 3 ∧ build openBin oneField { stylize := false } = .ok d₀ ∧
      ∀ d ∈ drafts, ∃ r, replay d.assignment (d₀.spotsInOrder { stylize := false }) d₀ = (r, none) ∧
        r.query = d.query := by
  have hthree : ((generate openBin ⟨oneField, { stylize := false }⟩).outcome.map
      List.length).toOption = some 3 := by decide
  obtain ⟨drafts, hdrafts, hlength⟩ := exists_of_map_toOption hthree
  obtain ⟨d₀, hb, hreplays⟩ := generate_replays (by decide) rfl nullFree_openBin hdrafts
  refine ⟨drafts, d₀, hdrafts, hlength, hb, fun d hd => ?_⟩
  obtain ⟨⟨r, hr, hquery, -⟩, -⟩ := hreplays d hd
  exact ⟨r, hr, hquery⟩

end Draft
end ChartAdvisor
