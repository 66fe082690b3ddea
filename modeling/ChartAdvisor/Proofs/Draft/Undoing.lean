import ChartAdvisor.Proofs.Draft.Coherence
import Mathlib.Data.List.Nodup

/-!
# Taking choices back

A spot is the mark or the slot of a property in an encoding. A choice at a spot changes the draft
there and nowhere else, and a spot that was in place when the choice was made is in place again
when the choice is taken back. Drafts are compared up to parts of a scale that are fixed at
`null`, which a choice for any part of that scale takes out.
-/
namespace ChartAdvisor

/-- Where a draft can be open. -/
inductive Spot
  | mark
  | slot (index : Nat) (p : Property)
deriving DecidableEq

/-- The property that is chosen at a spot. -/
def Spot.property : Spot → Property
  | .mark => .mark
  | .slot _ p => p

/-- An encoding as far as a choice at a spot does not touch it. -/
def Spot.rest (s : Spot) (j : Nat) (e : Encoding) : Encoding :=
  match s with
  | .mark => e.withoutNulls
  | .slot index p => if index = j then e.apart p else e.withoutNulls

theorem Spot.rest_of_ne {i j : Nat} (h : i ≠ j) (p : Property) :
    (Spot.slot i p).rest j = Encoding.withoutNulls := by
  funext e
  exact if_neg h

namespace Draft

/-- The name of the open slot at a spot. -/
def nameAt? (d : Draft) : Spot → Option String
  | .mark => d.slots.mark.map Candidates.name
  | .slot index p => (d.slots.slot? index p).map Candidates.name

/-- Chooses a value at a spot. -/
def chooseAt (d : Draft) (s : Spot) (c : Choice) : Attempt Draft :=
  match s with
  | .mark =>
    match (ofChoice? c : Option Mark) with
    | some m => d.setMark m
    | none => (d, some (.mismatch .mark c))
  | .slot index p => d.assign index p c

/-- Takes the choice at a spot back. -/
def reopenAt (d : Draft) : Spot → Attempt Draft
  | .mark => (d.resetMark, none)
  | .slot index p => d.reset index p

theorem chooseAt_mark (d : Draft) (m : Mark) : d.chooseAt .mark (.mark m) = d.setMark m := rfl

theorem chooseAt_slot (d : Draft) (i : Nat) (p : Property) (c : Choice) :
    d.chooseAt (.slot i p) c = d.assign i p c := rfl

theorem reopenAt_slot (d : Draft) (i : Nat) (p : Property) :
    d.reopenAt (.slot i p) = d.reset i p := rfl

/-- Two drafts that differ at most in parts of a scale at `null`. -/
structure Alike (d d' : Draft) : Prop where
  slots : d.slots = d'.slots
  origin : d.origin = d'.origin
  settings : { d.query with encodings := [] } = { d'.query with encodings := [] }
  encodings : ∀ j, (d.encoding? j).map Encoding.withoutNulls =
    (d'.encoding? j).map Encoding.withoutNulls

/-- Two drafts that differ at most in what has been chosen at a spot. -/
structure AlikeApart (s : Spot) (d d' : Draft) : Prop where
  slots : d.slots = d'.slots
  origin : d.origin = d'.origin
  settings : { d.query with mark := .wild .short, encodings := [] } =
    { d'.query with mark := .wild .short, encodings := [] }
  mark : s ≠ .mark → d.query.mark = d'.query.mark
  encodings : ∀ j, (d.encoding? j).map (s.rest j) = (d'.encoding? j).map (s.rest j)

/-- A spot is as it was built. -/
def InPlace (d : Draft) : Spot → Prop
  | .mark => d.query.mark = d.origin.mark
  | .slot index p => ∀ e o, d.encoding? index = some e → d.origin.encodings[index]? = some o →
    (e.restore o p).withoutNulls = e.withoutNulls

namespace Alike

theorem refl (d : Draft) : d.Alike d := ⟨rfl, rfl, rfl, fun _ => rfl⟩

theorem symm {d d' : Draft} (h : d.Alike d') : d'.Alike d :=
  ⟨h.slots.symm, h.origin.symm, h.settings.symm, fun j => (h.encodings j).symm⟩

theorem trans {d d' d'' : Draft} (h : d.Alike d') (h' : d'.Alike d'') : d.Alike d'' :=
  ⟨h.slots.trans h'.slots, h.origin.trans h'.origin, h.settings.trans h'.settings,
    fun j => (h.encodings j).trans (h'.encodings j)⟩

theorem mark {d d' : Draft} (h : d.Alike d') : d.query.mark = d'.query.mark := by
  have h' := congrArg ChartQuery.mark h.settings
  exact h'

theorem rest {d d' : Draft} (h : d.Alike d') (s : Spot) (j : Nat) :
    (d.encoding? j).map (s.rest j) = (d'.encoding? j).map (s.rest j) := by
  have hj := h.encodings j
  cases he : d.encoding? j <;> cases he' : d'.encoding? j <;> rw [he, he'] at hj <;>
    simp only [Option.map_none, Option.map_some, reduceCtorEq, Option.some.injEq] at hj ⊢
  unfold Spot.rest
  split
  · exact hj
  · split
    · exact Encoding.apart_congr hj _
    · exact hj

theorem apart {d d' : Draft} (h : d.Alike d') (s : Spot) : d.AlikeApart s d' where
  slots := h.slots
  origin := h.origin
  settings := by
    have h' := congrArg (fun q : ChartQuery => { q with mark := .wild .short }) h.settings
    exact h'
  mark _ := h.mark
  encodings := h.rest s

end Alike

namespace AlikeApart

variable {s : Spot} {d d' d'' : Draft}

theorem nameAt?_eq (h : d.AlikeApart s d') (t : Spot) : d.nameAt? t = d'.nameAt? t := by
  cases t <;> simp only [nameAt?, h.slots]

theorem symm (h : d.AlikeApart s d') : d'.AlikeApart s d where
  slots := h.slots.symm
  origin := h.origin.symm
  settings := h.settings.symm
  mark hs := (h.mark hs).symm
  encodings j := (h.encodings j).symm

theorem trans (h : d.AlikeApart s d') (h' : d'.AlikeApart s d'') : d.AlikeApart s d'' where
  slots := h.slots.trans h'.slots
  origin := h.origin.trans h'.origin
  settings := h.settings.trans h'.settings
  mark hs := (h.mark hs).trans (h'.mark hs)
  encodings j := (h.encodings j).trans (h'.encodings j)

end AlikeApart

theorem encodings_chooseAt_mark (d : Draft) (c : Choice) :
    (d.chooseAt .mark c).1.query.encodings = d.query.encodings := by
  unfold Draft.chooseAt setMark
  cases (ofChoice? c : Option Mark) <;> cases d.slots.mark <;> rfl

theorem encodings_reopenAt_mark (d : Draft) :
    (d.reopenAt .mark).1.query.encodings = d.query.encodings := by
  unfold Draft.reopenAt resetMark
  cases d.slots.mark <;> rfl

theorem setMark_eq {d : Draft} {k : Candidates Mark} (hk : d.slots.mark = some k) (m : Mark) :
    d.setMark m = ({ d with
      query := { d.query with mark := .fixed m }
      assignment := Table.insert k.name (.mark m) d.assignment }, none) := by
  rw [setMark, hk]

/-- What a choice of the mark does that is taken. -/
theorem chooseAt_mark_eq_none {d : Draft} {c : Choice} (hn : (d.chooseAt .mark c).2 = none) :
    ∃ m k, c = .mark m ∧ d.slots.mark = some k ∧ d.chooseAt .mark c = ({ d with
      query := { d.query with mark := .fixed m }
      assignment := Table.insert k.name c d.assignment }, none) := by
  cases c with
  | mark m =>
    cases hk : d.slots.mark with
    | none => simp [Draft.chooseAt, ofChoice?, setMark, hk] at hn
    | some k => exact ⟨m, k, rfl, rfl, setMark_eq hk m⟩
  | _ => contradiction

/-- What a choice that is taken does. -/
theorem assign_eq_none {d : Draft} (h : d.Coherent) {i : Nat} {p : Property} {c : Choice}
    (hn : (d.assign i p c).2 = none) :
    ∃ s e o after, d.slots.slot? i p = some s ∧ d.encoding? i = some e ∧
      d.origin.encodings[i]? = some o ∧ e.choose o p c = (after, none) ∧
      d.assign i p c = ({ d.putEncoding i e after with
        assignment := Table.insert s.name c d.assignment }, none) := by
  rcases d.slotName_cases i p with ⟨s, e, hs, he⟩ | ⟨error, hname⟩
  · obtain ⟨o, ho⟩ := h.exists_origin he
    have ha := assign_eq hs he ho c
    rw [ha] at hn
    rcases hc : e.choose o p c with ⟨after, _ | error⟩
    · rw [hc] at ha
      exact ⟨s, e, o, after, hs, he, ho, hc, ha⟩
    · rw [hc] at hn
      contradiction
  · unfold Draft.assign at hn
    rw [hname] at hn
    contradiction

theorem encoding?_putEncoding (d : Draft) {i : Nat} {before : Encoding}
    (h : d.encoding? i = some before) (after : Encoding) (j : Nat) :
    (d.putEncoding i before after).encoding? j = if i = j then some after else d.encoding? j := by
  obtain ⟨hi, -⟩ := List.getElem?_eq_some_iff.mp (show d.query.encodings[i]? = some before from h)
  unfold encoding? putEncoding
  rw [List.getElem?_set]
  split
  · rfl
  · rfl

theorem Coherent.chooseAt {d : Draft} (h : d.Coherent) (s : Spot) (c : Choice) :
    (d.chooseAt s c).1.Coherent := by
  unfold Draft.chooseAt
  split
  · split
    · exact h.setMark _
    · exact h
  · exact h.assign _ _ _

theorem Coherent.reopenAt {d : Draft} (h : d.Coherent) (s : Spot) :
    (d.reopenAt s).1.Coherent := by
  unfold Draft.reopenAt
  split
  · exact h.resetMark
  · exact h.reset _ _

/-- A choice changes nothing but its spot. -/
theorem alikeApart_chooseAt {d : Draft} (h : d.Coherent) {s : Spot} {c : Choice}
    (hn : (d.chooseAt s c).2 = none) : d.AlikeApart s (d.chooseAt s c).1 := by
  cases s with
  | mark =>
    obtain ⟨m, k, -, -, heq⟩ := chooseAt_mark_eq_none hn
    rw [heq]
    exact ⟨rfl, rfl, rfl, fun hne => absurd rfl hne, fun _ => rfl⟩
  | slot i p =>
    obtain ⟨s, e, o, after, hs, he, ho, hc, ha⟩ := assign_eq_none h hn
    rw [chooseAt_slot, ha]
    refine ⟨rfl, rfl, rfl, fun _ => rfl, fun j => ?_⟩
    have hput := d.encoding?_putEncoding he after j
    rw [show Draft.encoding? { d.putEncoding i e after with
      assignment := Table.insert s.name c d.assignment } j = _ from hput]
    split
    · next hij =>
      subst hij
      rw [he]
      have hap := Encoding.apart_choose p c (h.kind_eq he ho)
      rw [hc] at hap
      simp only [Option.map_some, Spot.rest, if_pos, hap]
    · rfl

/-- The settings of a query and its mark make up all but its encodings. -/
theorem settings_of_mark {q r : ChartQuery} (hm : q.mark = r.mark)
    (h : { q with mark := .wild .short, encodings := [] } =
      { r with mark := .wild .short, encodings := [] }) :
    { q with encodings := [] } = { r with encodings := [] } := by
  have h' := congrArg (fun t : ChartQuery => { t with mark := q.mark }) h
  simpa only [hm] using h'

/-- The encodings at the index of a spot, when two drafts differ at most there. -/
theorem AlikeApart.encoding {d d' : Draft} {i : Nat} {p : Property} (h : d.AlikeApart (.slot i p) d')
    {e : Encoding} (he : d.encoding? i = some e) :
    ∃ e', d'.encoding? i = some e' ∧ e.apart p = e'.apart p := by
  have hi := h.encodings i
  rw [he] at hi
  cases he' : d'.encoding? i with
  | none => rw [he'] at hi; contradiction
  | some e' =>
    rw [he'] at hi
    exact ⟨e', rfl, by simpa [Spot.rest] using hi⟩

/-- Drafts that differ at most at a spot become alike when alike encodings are put there. -/
theorem AlikeApart.alike_put {d d' : Draft} {i : Nat} {p : Property}
    (h : d.AlikeApart (.slot i p) d') {e e' after after' : Encoding}
    (he : d.encoding? i = some e) (he' : d'.encoding? i = some e')
    (hafter : after.withoutNulls = after'.withoutNulls) (a a' : List (String × Choice)) :
    Draft.Alike { d.putEncoding i e after with assignment := a }
      { d'.putEncoding i e' after' with assignment := a' } where
  slots := h.slots
  origin := h.origin
  settings := settings_of_mark (h.mark nofun) h.settings
  encodings j := by
    have hj := h.encodings j
    have hput := d.encoding?_putEncoding he after j
    have hput' := d'.encoding?_putEncoding he' after' j
    refine (congrArg (Option.map _) hput).trans (Eq.trans ?_ (congrArg (Option.map _) hput').symm)
    by_cases hij : i = j
    · rw [if_pos hij, if_pos hij, Option.map_some, Option.map_some, hafter]
    · rw [if_neg hij, if_neg hij]
      rwa [Spot.rest_of_ne hij] at hj

/-- What had been chosen at a spot does not matter once a choice is made there. -/
theorem alike_chooseAt {d d' : Draft} (h : d.Coherent) {s : Spot}
    (hd : d.AlikeApart s d') {c : Choice} (hn : (d.chooseAt s c).2 = none) :
    (d'.chooseAt s c).2 = none ∧ (d.chooseAt s c).1.Alike (d'.chooseAt s c).1 := by
  cases s with
  | mark =>
    obtain ⟨m, k, rfl, hk, heq⟩ := chooseAt_mark_eq_none hn
    have heq' : d'.chooseAt .mark (.mark m) = _ := setMark_eq (hd.slots ▸ hk) m
    rw [heq, heq']
    refine ⟨rfl, hd.slots, hd.origin, ?_, hd.encodings⟩
    have hset := congrArg (fun t : ChartQuery => { t with mark := .fixed m }) hd.settings
    exact hset
  | slot i p =>
    obtain ⟨k, e, o, after, hs, he, ho, hc, ha⟩ := assign_eq_none h hn
    obtain ⟨e', he', hap⟩ := hd.encoding he
    have hs' : d'.slots.slot? i p = some k := by rw [← hd.slots, hs]
    have ho' : d'.origin.encodings[i]? = some o := by rw [← hd.origin, ho]
    have hk := h.kind_eq he ho
    obtain ⟨herr, halike⟩ := Encoding.choose_of_apart hap hk c
    rw [hc] at herr halike
    have ha' := assign_eq hs' he' ho' c
    rcases hc' : e'.choose o p c with ⟨after', error⟩
    rw [hc'] at ha' herr halike
    obtain rfl : none = error := herr
    rw [chooseAt_slot, chooseAt_slot, ha, ha']
    exact ⟨rfl, hd.alike_put he he' (halike rfl) _ _⟩

/-- What taking a choice back does, at a spot that is open in the query as it was built. -/
theorem reset_eq_none {d : Draft} (h : d.Coherent) {i : Nat} {p : Property}
    (hn : (d.reset i p).2 = none) :
    ∃ s e o, d.slots.slot? i p = some s ∧ d.encoding? i = some e ∧
      d.origin.encodings[i]? = some o ∧
      d.reset i p = ({ d.putEncoding i e (e.restore o p) with
        assignment := Table.erase s.name d.assignment }, none) := by
  rcases d.slotName_cases i p with ⟨s, e, hs, he⟩ | ⟨error, hname⟩
  · obtain ⟨o, ho⟩ := h.exists_origin he
    exact ⟨s, e, o, hs, he, ho, reset_eq hs he ho⟩
  · unfold Draft.reset at hn
    rw [hname] at hn
    contradiction

/-- Taking a choice back changes nothing but its spot. -/
theorem alikeApart_reopenAt {d : Draft} (h : d.Coherent) {s : Spot}
    (hn : (d.reopenAt s).2 = none) : d.AlikeApart s (d.reopenAt s).1 := by
  cases s with
  | mark =>
    unfold reopenAt resetMark
    cases d.slots.mark with
    | none => exact (Alike.refl d).apart .mark
    | some k => exact ⟨rfl, rfl, rfl, fun hne => absurd rfl hne, fun _ => rfl⟩
  | slot i p =>
    obtain ⟨s, e, o, hs, he, ho, hr⟩ := reset_eq_none h hn
    rw [reopenAt_slot, hr]
    refine ⟨rfl, rfl, rfl, fun _ => rfl, fun j => ?_⟩
    have hput := d.encoding?_putEncoding he (e.restore o p) j
    rw [show Draft.encoding? { d.putEncoding i e (e.restore o p) with
      assignment := Table.erase s.name d.assignment } j = _ from hput]
    split
    · next hij =>
      subst hij
      rw [he]
      simp only [Option.map_some, Spot.rest, if_pos, Encoding.apart_restore p (h.kind_eq he ho)]
    · rfl

theorem Coherent.isOpen {d : Draft} (h : d.Coherent) {i : Nat} {p : Property}
    {s : Candidates Choice} {o : Encoding} (hs : d.slots.slot? i p = some s)
    (ho : d.origin.encodings[i]? = some o) : o.isOpen p = true := by
  obtain ⟨o', ho', hopen⟩ := h.exists_origin_of_slot? hs
  exact Option.some.inj (ho.symm.trans ho') ▸ hopen

/-- The encoding in which a choice was made. -/
theorem encoding_chooseAt {d : Draft} (h : d.Coherent) {i : Nat} {p : Property} {c : Choice}
    (hn : (d.chooseAt (.slot i p) c).2 = none) : ∃ e o, d.encoding? i = some e ∧
      d.origin.encodings[i]? = some o ∧ e.kind = o.kind ∧ (e.choose o p c).2 = none ∧
      (d.chooseAt (.slot i p) c).1.encoding? i = some (e.choose o p c).1 := by
  obtain ⟨k, e, o, after, -, he, ho, hchoose, ha⟩ := assign_eq_none h hn
  refine ⟨e, o, he, ho, h.kind_eq he ho, by rw [hchoose], ?_⟩
  rw [hchoose, chooseAt_slot, ha]
  exact (d.encoding?_putEncoding he after i).trans (if_pos rfl)

/-- The encoding in which a choice was taken back. -/
theorem encoding_reopenAt {d : Draft} (h : d.Coherent) {i : Nat} {p : Property}
    (hn : (d.reopenAt (.slot i p)).2 = none) : ∃ e o, d.encoding? i = some e ∧
      d.origin.encodings[i]? = some o ∧ e.kind = o.kind ∧ o.isOpen p = true ∧
      (d.reopenAt (.slot i p)).1.encoding? i = some (e.restore o p) := by
  obtain ⟨k, e, o, hk, he, ho, hr⟩ := reset_eq_none h hn
  refine ⟨e, o, he, ho, h.kind_eq he ho, h.isOpen hk ho, ?_⟩
  rw [reopenAt_slot, hr]
  exact (d.encoding?_putEncoding he _ i).trans (if_pos rfl)

/-- What had been chosen at a spot does not matter once it is taken back. -/
theorem alike_reopenAt {d d' : Draft} (h : d.Coherent) {s : Spot}
    (hd : d.AlikeApart s d') (hs : (d.nameAt? s).isSome) (hn : (d.reopenAt s).2 = none) :
    (d'.reopenAt s).2 = none ∧ (d.reopenAt s).1.Alike (d'.reopenAt s).1 := by
  cases s with
  | mark =>
    obtain ⟨k, hk⟩ : ∃ k, d.slots.mark = some k := by
      simpa [nameAt?, Option.isSome_iff_exists] using hs
    unfold reopenAt resetMark
    simp only [← hd.slots, hk]
    refine ⟨trivial, rfl, hd.origin, ?_, hd.encodings⟩
    have hset := congrArg (fun t : ChartQuery => { t with mark := .wild k.toWildcard }) hd.settings
    exact hset
  | slot i p =>
    obtain ⟨k, e, o, hs, he, ho, hr⟩ := reset_eq_none h hn
    obtain ⟨e', he', hap⟩ := hd.encoding he
    have hs' : d'.slots.slot? i p = some k := by rw [← hd.slots, hs]
    have ho' : d'.origin.encodings[i]? = some o := by rw [← hd.origin, ho]
    rw [reopenAt_slot, reopenAt_slot, hr, reset_eq hs' he' ho']
    exact ⟨rfl, hd.alike_put he he'
      (Encoding.restore_of_apart hap (h.isOpen hs ho) (h.kind_eq he ho)) _ _⟩

/-- Taking a choice back changes nothing at a spot that is in place. -/
theorem InPlace.alike_reopenAt {d : Draft} (h : d.Coherent) {s : Spot} (hd : d.InPlace s)
    (hs : (d.nameAt? s).isSome) (hn : (d.reopenAt s).2 = none) : (d.reopenAt s).1.Alike d := by
  cases s with
  | mark =>
    obtain ⟨k, hk⟩ : ∃ k, d.slots.mark = some k := by
      simpa [nameAt?, Option.isSome_iff_exists] using hs
    unfold reopenAt resetMark
    simp only [hk]
    have hmark : d.query.mark = .wild k.toWildcard :=
      (show d.query.mark = d.origin.mark from hd).trans (h.origin_mark_eq hk)
    refine ⟨rfl, rfl, ?_, fun _ => rfl⟩
    exact congrArg (fun m => { d.query with mark := m, encodings := [] }) hmark.symm
  | slot i p =>
    obtain ⟨k, e, o, hs, he, ho, hr⟩ := reset_eq_none h hn
    rw [reopenAt_slot, hr]
    have hself : Draft.Alike { d.putEncoding i e (e.restore o p) with
        assignment := Table.erase k.name d.assignment }
        { d.putEncoding i e e with assignment := d.assignment } :=
      ((Alike.refl d).apart (.slot i p)).alike_put he he (hd e o he ho) _ _
    refine hself.trans ⟨rfl, rfl, rfl, fun j => ?_⟩
    refine congrArg (Option.map _) ((d.encoding?_putEncoding he e j).trans ?_)
    split
    · next hij => rw [← hij, he]
    · rfl

theorem Alike.encoding {d d' : Draft} (h : d.Alike d') {i : Nat} {e : Encoding}
    (he : d.encoding? i = some e) :
    ∃ e', d'.encoding? i = some e' ∧ e.withoutNulls = e'.withoutNulls := by
  have hi := h.encodings i
  rw [he] at hi
  cases he' : d'.encoding? i with
  | none => rw [he'] at hi; contradiction
  | some e' => rw [he'] at hi; exact ⟨e', rfl, Option.some.inj hi⟩

theorem mem_names {slots : SlotIndex} {i : Nat} {p : Property} {c : Candidates Choice}
    (h : slots.slot? i p = some c) :
    ∃ hi : i < slots.encodings.length, (p, c) ∈ slots.encodings[i] := by
  unfold SlotIndex.slot? SlotIndex.ofEncoding at h
  cases hi : slots.encodings[i]? with
  | none => rw [hi] at h; contradiction
  | some l =>
    rw [hi] at h
    obtain ⟨hlt, rfl⟩ := List.getElem?_eq_some_iff.mp hi
    obtain ⟨l₁, l₂, heq, -⟩ := List.lookup_eq_some_iff.mp h
    refine ⟨hlt, ?_⟩
    rw [show slots.encodings[i] = _ from heq]
    exact List.mem_append_right _ (List.mem_cons_self ..)

/-- Names tell spots apart. -/
theorem Coherent.eq_of_nameAt? {d : Draft} (h : d.Coherent) {s t : Spot} {n : String}
    (hs : n ∈ d.nameAt? s) (ht : n ∈ d.nameAt? t) : s = t := by
  have hn := h.named
  unfold SlotIndex.names at hn
  obtain ⟨-, hslots, hmark⟩ := List.nodup_append.mp hn
  have mem {i : Nat} {p : Property} (hm : n ∈ d.nameAt? (.slot i p)) :
      ∃ c, (∃ hi : i < d.slots.encodings.length, (p, c) ∈ d.slots.encodings[i]) ∧ c.name = n := by
    obtain ⟨c, hc, rfl⟩ := Option.map_eq_some_iff.mp hm
    exact ⟨c, mem_names hc, rfl⟩
  have apart {i : Nat} {p : Property} (hm : n ∈ d.nameAt? (.slot i p)) : n ∉ d.nameAt? .mark := by
    intro hmk
    obtain ⟨c, ⟨hi, hc⟩, rfl⟩ := mem hm
    obtain ⟨k, hk, hkn⟩ := Option.map_eq_some_iff.mp hmk
    refine hmark k.name (by simp [hk]) c.name ?_ hkn
    exact List.mem_flatMap.mpr ⟨_, List.getElem_mem hi, List.mem_map.mpr ⟨_, hc, rfl⟩⟩
  cases s with
  | mark =>
    cases t with
    | mark => rfl
    | slot j q => exact absurd hs (apart ht)
  | slot i p =>
    cases t with
    | mark => exact absurd ht (apart hs)
    | slot j q =>
      obtain ⟨c, ⟨hi, hc⟩, hcn⟩ := mem hs
      obtain ⟨c', ⟨hj, hc'⟩, hcn'⟩ := mem ht
      obtain ⟨hwithin, hacross⟩ := List.pairwise_flatMap.mp hslots
      have hne {i j : Nat} (hi : i < d.slots.encodings.length) (hj : j < d.slots.encodings.length)
          (hij : i < j) {p q : Property} {c c' : Candidates Choice}
          (hc : (p, c) ∈ d.slots.encodings[i]) (hc' : (q, c') ∈ d.slots.encodings[j]) :
          c.name ≠ c'.name :=
        List.pairwise_iff_getElem.mp hacross i j hi hj hij _ (List.mem_map.mpr ⟨_, hc, rfl⟩) _
          (List.mem_map.mpr ⟨_, hc', rfl⟩)
      have hij : i = j := by
        rcases Nat.lt_trichotomy i j with hlt | heq | hgt
        · exact absurd (hcn.trans hcn'.symm) (hne hi hj hlt hc hc')
        · exact heq
        · exact absurd (hcn'.trans hcn.symm) (hne hj hi hgt hc' hc)
      subst hij
      have hpc := List.inj_on_of_nodup_map (hwithin _ (List.getElem_mem hi)) hc hc'
        (hcn.trans hcn'.symm)
      rw [(Prod.mk.inj hpc).1]

/-- A choice is recorded under the name of its slot. -/
theorem assignment_chooseAt {d : Draft} (h : d.Coherent) {s : Spot} {c : Choice}
    (hn : (d.chooseAt s c).2 = none) :
    ∃ n ∈ d.nameAt? s, (d.chooseAt s c).1.assignment = Table.insert n c d.assignment := by
  cases s with
  | mark =>
    obtain ⟨m, k, -, hk, heq⟩ := chooseAt_mark_eq_none hn
    exact ⟨k.name, by simp [nameAt?, hk], by rw [heq]⟩
  | slot i p =>
    obtain ⟨k, e, o, after, hs, he, ho, hc, ha⟩ := assign_eq_none h hn
    refine ⟨k.name, by simp [nameAt?, hs], ?_⟩
    rw [chooseAt_slot, ha]

/-- Taking a choice back takes it off the record. -/
theorem assignment_reopenAt {d : Draft} (h : d.Coherent) {s : Spot} (hs : (d.nameAt? s).isSome)
    (hn : (d.reopenAt s).2 = none) :
    ∃ n ∈ d.nameAt? s, (d.reopenAt s).1.assignment = Table.erase n d.assignment := by
  cases s with
  | mark =>
    unfold Draft.reopenAt resetMark
    cases hk : d.slots.mark with
    | none => simp [nameAt?, hk] at hs
    | some k => exact ⟨k.name, by simp [nameAt?, hk], rfl⟩
  | slot i p =>
    obtain ⟨k, e, o, hk, he, ho, hr⟩ := reset_eq_none h hn
    refine ⟨k.name, by simp [nameAt?, hk], ?_⟩
    rw [reopenAt_slot, hr]

/-- A choice is on record for its spot. -/
theorem lookup_chooseAt_self {d : Draft} (h : d.Coherent) {s : Spot} {c : Choice}
    (hn : (d.chooseAt s c).2 = none) {n : String} (hname : n ∈ d.nameAt? s) :
    (d.chooseAt s c).1.assignment.lookup n = some c := by
  obtain ⟨k, hk, ha⟩ := assignment_chooseAt h hn
  obtain rfl := Option.mem_unique hname hk
  rw [ha, Table.lookup_insert, if_pos rfl]

/-- A choice leaves alone what is on record under other names. -/
theorem lookup_chooseAt {d : Draft} (h : d.Coherent) {s : Spot} {c : Choice}
    (hn : (d.chooseAt s c).2 = none) {n : String} (hne : n ∉ d.nameAt? s) :
    (d.chooseAt s c).1.assignment.lookup n = d.assignment.lookup n := by
  obtain ⟨k, hk, ha⟩ := assignment_chooseAt h hn
  rw [ha, Table.lookup_insert, if_neg]
  rintro rfl
  exact hne hk

theorem lookup_reopenAt_self {d : Draft} (h : d.Coherent) {s : Spot} (hn : (d.reopenAt s).2 = none)
    {n : String} (hname : n ∈ d.nameAt? s) : (d.reopenAt s).1.assignment.lookup n = none := by
  obtain ⟨k, hk, ha⟩ := assignment_reopenAt h (Option.isSome_of_mem hname) hn
  obtain rfl := Option.mem_unique hname hk
  rw [ha, Table.lookup_erase, if_pos rfl]

theorem lookup_reopenAt {d : Draft} (h : d.Coherent) {s : Spot} (hn : (d.reopenAt s).2 = none)
    {n : String} (hne : n ∉ d.nameAt? s) :
    (d.reopenAt s).1.assignment.lookup n = d.assignment.lookup n := by
  by_cases hs : (d.nameAt? s).isSome
  · obtain ⟨k, hk, ha⟩ := assignment_reopenAt h hs hn
    rw [ha, Table.lookup_erase, if_neg]
    rintro rfl
    exact hne hk
  · cases s with
    | slot i p =>
      obtain ⟨k, -, -, hk, -⟩ := reset_eq_none h hn
      simp [nameAt?, hk] at hs
    | mark =>
      cases hk : d.slots.mark with
      | none => simp [Draft.reopenAt, resetMark, hk]
      | some k => simp [nameAt?, hk] at hs

/-- An encoding other than the one of a spot is left as it is, up to nulls. -/
theorem AlikeApart.encoding_of_ne {d d' : Draft} {s : Spot} (h : d.AlikeApart s d') {j : Nat}
    (hs : ∀ p, s ≠ .slot j p) : (d.encoding? j).map Encoding.withoutNulls =
      (d'.encoding? j).map Encoding.withoutNulls := by
  have hj := h.encodings j
  cases s with
  | mark => exact hj
  | slot i p =>
    have hij : i ≠ j := fun e => hs p (e ▸ rfl)
    rwa [Spot.rest_of_ne hij] at hj

theorem AlikeApart.exists_encoding_of_ne {d d' : Draft} {s : Spot} (h : d.AlikeApart s d') {j : Nat}
    (hs : ∀ p, s ≠ .slot j p) {e' : Encoding} (he' : d'.encoding? j = some e') :
    ∃ e, d.encoding? j = some e ∧ e.withoutNulls = e'.withoutNulls := by
  have hj := h.encoding_of_ne hs
  rw [he'] at hj
  exact Option.map_eq_some_iff.mp hj

/-- A slot stands as it stood when drafts differ at most at another spot in which it does not
lie. -/
theorem AlikeApart.standing_of_ne {d d' : Draft} {s : Spot} (h : d.AlikeApart s d') {i : Nat}
    {q : Property} (hs : s ≠ .slot i q) (hparent : ∀ p, s = .slot i p → q.parent? ≠ some p)
    {e' : Encoding} (he' : d'.encoding? i = some e') :
    ∃ e, d.encoding? i = some e ∧ e.standing q = e'.standing q := by
  by_cases hi : ∃ p, s = .slot i p
  · obtain ⟨p, rfl⟩ := hi
    obtain ⟨e, he, hapart⟩ := h.symm.encoding he'
    have hqp : q ≠ p := fun heq => hs (by rw [heq])
    exact ⟨e, he, (Encoding.standing_of_apart hapart hqp (hparent p rfl)).symm⟩
  · obtain ⟨e, he, heq⟩ := h.exists_encoding_of_ne (fun p heq => hi ⟨p, heq⟩) he'
    exact ⟨e, he, Encoding.standing_congr heq q⟩

/-- A spot stays in place when a choice is made elsewhere, unless it is made inside it. -/
theorem InPlace.chooseAt {d : Draft} (h : d.Coherent) {s t : Spot} (ht : d.InPlace t) {c : Choice}
    (hn : (d.chooseAt s c).2 = none) (hst : t ≠ s)
    (hp : ∀ i p q, s = .slot i p → t = .slot i q → p.parent? ≠ some q) :
    (d.chooseAt s c).1.InPlace t := by
  have hap := alikeApart_chooseAt h hn
  cases t with
  | mark => exact (hap.mark (Ne.symm hst)).symm.trans (ht.trans (congrArg (·.mark) hap.origin))
  | slot j q =>
    intro e' o he' ho
    rw [← hap.origin] at ho
    by_cases hs : ∃ p, s = .slot j p
    · obtain ⟨p, rfl⟩ := hs
      obtain ⟨e, o', he, ho', hk, htaken, hafter⟩ := encoding_chooseAt h hn
      obtain rfl := Option.some.inj (ho'.symm.trans ho)
      obtain rfl := Option.some.inj (hafter.symm.trans he')
      exact Encoding.restore_choose hk htaken (fun e => hst (e ▸ rfl)) (hp j p q rfl rfl)
        (.inr (ht e o' he ho))
    · obtain ⟨e, he, hee⟩ := hap.exists_encoding_of_ne (fun p e => hs ⟨p, e⟩) he'
      have hko : e'.kind = o.kind := (Encoding.kind_congr hee).symm.trans (h.kind_eq he ho)
      rw [Encoding.restore_congr hee.symm q hko, ht e o he ho, hee]

end Draft
end ChartAdvisor
