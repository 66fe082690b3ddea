import ChartAdvisor.Proofs.Rules.Styling

/-!
# Styled once and for all

The ornaments of a style are for different channels, and what an ornament goes by is not what any of them
sets. So all of them go by the draft as it was, and nothing of it changes but the scales of the fields
that get one. A draft that is styled stays as it is when it is styled again.
-/
namespace ChartAdvisor
namespace Draft

variable {d d' : Draft} {c : Channel} {i : Nat} {q r : FieldEncoding} {f : Scale → Scale}

/-! ## The first field on a channel -/

/-- The first field on a channel stays, if what styling goes by stays and so does its encoding. -/
theorem Agree.fieldOn?_eq (h : d.Agree stylingInputs d')
    (hsame : ∀ i q, d.fieldOn? c = some (i, q) → d'.query.encodings[i]? = d.query.encodings[i]?) :
    d'.fieldOn? c = d.fieldOn? c := by
  rcases h.fieldOn?_cases (by decide) c with ⟨hnone, hnone'⟩ | ⟨i, q, r, hq, hr, -⟩
  · rw [hnone, hnone']
  · have hi := hsame i q hq
    rw [getElem?_of_fieldOn? hq, getElem?_of_fieldOn? hr] at hi
    rw [hq, hr, Encoding.field.inj (Option.some.inj hi)]

theorem getElem?_putField_self (h : d.query.encodings[i]? = some (.field q)) (r : FieldEncoding) :
    (d.putField i r).query.encodings[i]? = some (.field r) :=
  List.getElem?_set_self (List.getElem?_eq_some_iff.mp h).1

theorem getElem?_putField_of_ne {j : Nat} (h : i ≠ j) (d : Draft) (r : FieldEncoding) :
    (d.putField i r).query.encodings[j]? = d.query.encodings[j]? := List.getElem?_set_ne h

theorem putField_self (h : d.query.encodings[i]? = some (.field q)) : d.putField i q = d := by
  obtain ⟨hi, hget⟩ := List.getElem?_eq_some_iff.mp h
  rw [putField, ← hget, List.set_getElem_self]

theorem fieldOn?_putField_self (h : d.fieldOn? c = some (i, q)) :
    (d.putField i (withScale q f)).fieldOn? c = some (i, withScale q f) := by
  have hi := getElem?_of_fieldOn? h
  rcases (agree_putField hi f).fieldOn?_cases (by decide) c with ⟨hnone, -⟩ | ⟨j, q', r, hq, hr, -⟩
  · rw [h] at hnone
    contradiction
  · obtain ⟨rfl, rfl⟩ := Prod.mk.inj (Option.some.inj (h.symm.trans hq))
    have hget := (getElem?_of_fieldOn? hr).symm.trans (getElem?_putField_self hi (withScale q f))
    rw [hr, Encoding.field.inj (Option.some.inj hget)]

/-- No field is the first one on two channels. -/
theorem ne_of_fieldOn? {c' : Channel} {j : Nat} (hne : c' ≠ c) (h : d.fieldOn? c = some (i, q))
    (h' : d.fieldOn? c' = some (j, r)) : i ≠ j := by
  rintro rfl
  obtain ⟨hi, hc⟩ := fieldOn?_eq_some h
  obtain ⟨hi', hc'⟩ := fieldOn?_eq_some h'
  obtain rfl : q = r := Encoding.field.inj (Option.some.inj (hi.symm.trans hi'))
  exact hne (Option.some.inj ((Slot.is_iff.mp hc').symm.trans (Slot.is_iff.mp hc)))

theorem fieldOn?_putField_of_ne {c' : Channel} (hne : c' ≠ c) (h : d.fieldOn? c = some (i, q)) :
    (d.putField i (withScale q f)).fieldOn? c' = d.fieldOn? c' :=
  (agree_putField (getElem?_of_fieldOn? h) f).fieldOn?_eq fun _ _ h' =>
    getElem?_putField_of_ne (ne_of_fieldOn? hne h h') d _

end Draft

namespace Ornament

variable {schema : Schema} {o o' : Ornament schema} {os : List (Ornament schema)} {d d' : Draft} {i : Nat}
  {q r : FieldEncoding}

/-! ## Adorned fields -/

/-- A field gets the part: it lacks it, in a scale that is absent or switched on. -/
def Adds (o : Ornament schema) (q r : FieldEncoding) : Prop :=
  ∃ s, (q.scale = none ∧ s = {} ∨ q.scale = some (.on s)) ∧ s.get o.part = none ∧
    r = { q with scale := some (.on (s.put o.part (some (.fixed o.value)))) }

theorem Adds.adorn_eq (h : o.Adds q r) : o.adorn q = r := by
  obtain ⟨s, ⟨hscale, rfl⟩ | hscale, hlacks, rfl⟩ := h <;>
    simp only [adorn, Draft.withScale, hscale, hlacks, Option.none_or]

theorem adorn_eq_or_adds (o : Ornament schema) (q : FieldEncoding) :
    o.adorn q = q ∨ o.Adds q (o.adorn q) := by
  rcases Draft.withScale_cases q fun s => s.put o.part ((s.get o.part).or (some (.fixed o.value))) with
    ⟨hscale, hadorn⟩ | ⟨s, hscale, hadorn⟩ | ⟨-, -, hadorn⟩
  · have hlacks : ({} : Scale).get o.part = none := by cases o.part <;> rfl
    refine .inr ⟨{}, .inl ⟨hscale, rfl⟩, hlacks, ?_⟩
    rw [adorn, hadorn, hlacks, Option.none_or]
  · cases hpart : s.get o.part with
    | none =>
      refine .inr ⟨s, .inr hscale, hpart, ?_⟩
      rw [adorn, hadorn, hpart, Option.none_or]
    | some v =>
      refine .inl ?_
      rw [adorn, hadorn, hpart, Option.some_or, ← hpart, Scale.put_get, ← hscale]
  · exact .inl hadorn

theorem adorn_adorn (o : Ornament schema) (q : FieldEncoding) : o.adorn (o.adorn q) = o.adorn q := by
  rcases adorn_eq_or_adds o (o.adorn q) with hsame | ⟨s, hscale, hlacks, -⟩
  · exact hsame
  · rcases adorn_eq_or_adds o q with hsame | ⟨t, -, -, hadds⟩
    · rw [hsame, hsame]
    · -- The field has the part from the first time.
      rw [hadds] at hscale
      obtain ⟨⟨⟩, -⟩ | hscale := hscale
      obtain rfl := Toggle.on.inj (Option.some.inj hscale)
      rw [Scale.get_put] at hlacks
      contradiction

theorem scaleType?_adorn {used : Channel → Bool} (hc : q.channel.is o.channel = true)
    (hasks : o.asks used q = .ok true) : (o.adorn q).scaleType? = q.scaleType? :=
  (o.adorns hc hasks).scaleType?_eq

/-- A field that has got an ornament asks for it as before. -/
theorem asks_adorn {used : Channel → Bool} (hc : q.channel.is o.channel = true)
    (hasks : o.asks used q = .ok true) : o.asks used (o.adorn q) = .ok true :=
  (o.congr (Draft.agree_withScale q _) (scaleType?_adorn hc hasks)).trans hasks

/-! ## One ornament -/

/-- The first field on the channel is adorned, or none asks for it. -/
theorem put_adorns_or (h : o.put d = .ok d') :
    (∃ i q, d.fieldOn? o.channel = some (i, q) ∧ o.asks d.channelUsed q = .ok true ∧
        d' = d.putField i (o.adorn q)) ∨
      d' = d ∧ ∀ i q, d.fieldOn? o.channel = some (i, q) → o.asks d.channelUsed q = .ok false := by
  rcases put_cases h with ⟨hnone, rfl⟩ | ⟨i, q, asked, hq, hasks, rfl⟩
  · exact .inr ⟨rfl, fun i q hq => nomatch hnone.symm.trans hq⟩
  · cases asked with
    | true => exact .inl ⟨i, q, hq, hasks, rfl⟩
    | false =>
      refine .inr ⟨rfl, fun j r hr => ?_⟩
      obtain ⟨rfl, rfl⟩ := Prod.mk.inj (Option.some.inj (hq.symm.trans hr))
      exact hasks

/-- Of a draft, nothing changes but its encodings. -/
theorem put_rest (h : o.put d = .ok d') :
    d' = { d with query := { d.query with encodings := d'.query.encodings } } := by
  rcases put_adorns_or h with ⟨i, q, -, -, rfl⟩ | ⟨rfl, -⟩ <;> rfl

theorem channelUsed_put (h : o.put d = .ok d') : d'.channelUsed = d.channelUsed := by
  rcases put_adorns_or h with ⟨i, q, -, -, rfl⟩ | ⟨rfl, -⟩ <;> rfl

theorem fieldOn?_put (hne : o'.channel ≠ o.channel) (h : o.put d = .ok d') :
    d'.fieldOn? o'.channel = d.fieldOn? o'.channel := by
  rcases put_adorns_or h with ⟨i, q, hq, -, rfl⟩ | ⟨rfl, -⟩
  · exact Draft.fieldOn?_putField_of_ne hne hq
  · rfl

/-- The first field on the channel asks for the ornament, and gets it. -/
def Gives (o : Ornament schema) (d : Draft) (i : Nat) (r : FieldEncoding) : Prop :=
  ∃ q, d.fieldOn? o.channel = some (i, q) ∧ o.asks d.channelUsed q = .ok true ∧ o.Adds q r

theorem gives_put_iff (hne : o'.channel ≠ o.channel) (h : o.put d = .ok d') :
    o'.Gives d' i r ↔ o'.Gives d i r := by
  rw [Gives, Gives, fieldOn?_put hne h, channelUsed_put h]

theorem Gives.channel (h : o.Gives d i r) : r.channel.is o.channel = true := by
  obtain ⟨q, hq, -, s, -, -, rfl⟩ := h
  exact (Draft.fieldOn?_eq_some hq).2

theorem Gives.getElem?_put (h : o.Gives d i r) (hput : o.put d = .ok d') :
    d'.query.encodings[i]? = some (.field r) := by
  obtain ⟨q, hq, hasks, hadds⟩ := h
  rcases put_adorns_or hput with ⟨j, q', hq', -, rfl⟩ | ⟨-, hrefuses⟩
  · obtain ⟨rfl, rfl⟩ := Prod.mk.inj (Option.some.inj (hq.symm.trans hq'))
    rw [hadds.adorn_eq]
    exact Draft.getElem?_putField_self (Draft.getElem?_of_fieldOn? hq) r
  · rw [hrefuses i q hq] at hasks
    contradiction

theorem getElem?_put (hput : o.put d = .ok d') (h : ∀ r, ¬o.Gives d i r) :
    d'.query.encodings[i]? = d.query.encodings[i]? := by
  rcases put_adorns_or hput with ⟨j, q, hq, hasks, rfl⟩ | ⟨rfl, -⟩
  · by_cases hj : j = i
    · subst hj
      rcases adorn_eq_or_adds o q with hsame | hadds
      · rw [Draft.getElem?_putField_self (Draft.getElem?_of_fieldOn? hq), hsame,
          Draft.getElem?_of_fieldOn? hq]
      · exact absurd ⟨q, hq, hasks, hadds⟩ (h _)
    · exact Draft.getElem?_putField_of_ne hj d _
  · rfl

/-! ## All ornaments -/

/-- A draft with ornaments. Nothing of it changes but its encodings, and of these the fields that get an
ornament, by the draft as it was. -/
structure Adorned (os : List (Ornament schema)) (d d' : Draft) : Prop where
  rest : d' = { d with query := { d.query with encodings := d'.query.encodings } }
  given : ∀ o ∈ os, ∀ i r, o.Gives d i r → d'.query.encodings[i]? = some (.field r)
  kept : ∀ i, (∀ o ∈ os, ∀ r, ¬o.Gives d i r) → d'.query.encodings[i]? = d.query.encodings[i]?

theorem adorned_of_putAll (hos : os.Pairwise fun o o' => o.channel ≠ o'.channel)
    (h : putAll os d = .ok d') : Adorned os d d' := by
  induction hos generalizing d with
  | nil =>
    obtain rfl := Except.ok.inj h
    exact ⟨rfl, fun _ ho => (nomatch ho), fun _ _ => rfl⟩
  | @cons o os hne hos ih =>
    obtain ⟨m, hput, hrun⟩ := bind_eq_ok.mp (putAll_cons o os d ▸ h)
    have hm : Adorned os m d' := ih hrun
    -- The ornaments that follow see the draft as it was.
    have hgives {o'} (ho' : o' ∈ os) {i r} : o'.Gives m i r ↔ o'.Gives d i r :=
      gives_put_iff (hne o' ho').symm hput
    refine ⟨?_, fun o' ho' i r hgive => ?_, fun i hnone => ?_⟩
    · rw [hm.rest, put_rest hput]
    · rcases List.mem_cons.mp ho' with rfl | ho'
      · have hmi := hgive.getElem?_put hput
        rw [hm.kept i fun o'' ho'' r' hgive'' => ?_, hmi]
        obtain ⟨q, hq, -⟩ := hgive''
        obtain ⟨hqi, hchannel⟩ := Draft.fieldOn?_eq_some hq
        obtain rfl : r = q := Encoding.field.inj (Option.some.inj (hmi.symm.trans hqi))
        exact hne o'' ho'' (Option.some.inj
          ((Slot.is_iff.mp hgive.channel).symm.trans (Slot.is_iff.mp hchannel)))
      · exact hm.given o' ho' i r ((hgives ho').mpr hgive)
    · rw [hm.kept i fun o' ho' r hgive => hnone o' (List.mem_cons_of_mem _ ho') r ((hgives ho').mp hgive)]
      exact getElem?_put hput (hnone o List.mem_cons_self)

/-- The scale type in effect, of each encoding that has one. -/
def scaleTypes (d : Draft) : List (Option ScaleType) :=
  d.query.encodings.map fun e => e.field?.bind FieldEncoding.scaleType?

theorem Adorned.scaleTypes_eq (h : Adorned os d d') : scaleTypes d' = scaleTypes d := by
  refine List.ext_getElem? fun i => ?_
  rw [scaleTypes, scaleTypes, List.getElem?_map, List.getElem?_map]
  by_cases hgives : ∃ o ∈ os, ∃ r, o.Gives d i r
  · obtain ⟨o, ho, r, hgive⟩ := hgives
    rw [h.given o ho i r hgive]
    obtain ⟨q, hq, hasks, hadds⟩ := hgive
    obtain ⟨hi, hchannel⟩ := Draft.fieldOn?_eq_some hq
    rw [hi, ← hadds.adorn_eq]
    exact congrArg some (scaleType?_adorn hchannel hasks)
  · rw [h.kept i fun o ho r hgive => hgives ⟨o, ho, r, hgive⟩]

/-! ## Once and for all -/

/-- Putting an ornament succeeds and does nothing. -/
def Done (o : Ornament schema) (d : Draft) : Prop :=
  ∀ i q, d.fieldOn? o.channel = some (i, q) →
    ∃ asked, o.asks d.channelUsed q = .ok asked ∧ (asked = true → o.adorn q = q)

theorem Done.put_eq (h : o.Done d) : o.put d = .ok d := by
  cases hq : d.fieldOn? o.channel with
  | none => exact put_of_none hq
  | some found =>
    obtain ⟨i, q⟩ := found
    obtain ⟨asked, hasks, hsame⟩ := h i q hq
    refine (put_of_ok hq hasks).trans (congrArg Except.ok ?_)
    cases asked with
    | false => rfl
    | true => rw [if_pos rfl, hsame rfl, Draft.putField_self (Draft.getElem?_of_fieldOn? hq)]

/-- An ornament is done once it has been put. -/
theorem done_of_put (h : o.put d = .ok d') : o.Done d' := by
  intro i q hq
  rcases put_adorns_or h with ⟨j, r, hr, hasks, rfl⟩ | ⟨rfl, hrefuses⟩
  · obtain ⟨rfl, rfl⟩ := Prod.mk.inj
      (Option.some.inj ((Draft.fieldOn?_putField_self hr).symm.trans hq))
    exact ⟨true, asks_adorn (Draft.fieldOn?_eq_some hr).2 hasks, fun _ => adorn_adorn o r⟩
  · exact ⟨false, hrefuses i q hq, nofun⟩

/-- It stays so when others are put. -/
theorem Done.of_put (h : o.Done d) (hne : o.channel ≠ o'.channel) (hput : o'.put d = .ok d') :
    o.Done d' := by
  intro i q hq
  rw [fieldOn?_put hne hput] at hq
  rw [channelUsed_put hput]
  exact h i q hq

theorem done_of_putAll (hos : os.Pairwise fun o o' => o.channel ≠ o'.channel)
    (h : putAll os d = .ok d') : ∀ o ∈ os, o.Done d' := by
  induction hos generalizing d with
  | nil => exact fun _ ho => nomatch ho
  | @cons o os hne hos ih =>
    obtain ⟨m, hput, hrun⟩ := bind_eq_ok.mp (putAll_cons o os d ▸ h)
    intro o' ho'
    rcases List.mem_cons.mp ho' with rfl | ho'
    · exact foldlM_keeps (fun o'' ho'' _ _ hdone => hdone.of_put (hne o'' ho'')) (done_of_put hput) hrun
    · exact ih hrun o' ho'

theorem putAll_of_done (h : ∀ o ∈ os, o.Done d) : putAll os d = .ok d := by
  induction os with
  | nil => rfl
  | cons o os ih =>
    rw [putAll_cons, (h o List.mem_cons_self).put_eq]
    exact ih fun o' ho' => h o' (List.mem_cons_of_mem _ ho')

end Ornament

namespace Draft

open Ornament (Adorned scaleTypes)

/-- Styling gives fields the ornaments that they ask for, and changes nothing else: drafts stay in their
order, and all fields keep their scale types. Styled drafts can be styled again, and stay as they are. -/
theorem stylizeAll_adorns_once {ctx : Context} {drafts styled : List Draft}
    (h : stylizeAll ctx drafts = .ok styled) :
    List.Forall₂ (fun d d' => Adorned (ctx.config.ornaments ctx.schema) d d' ∧
        scaleTypes d' = scaleTypes d) drafts styled ∧
      stylizeAll ctx styled = .ok styled := by
  have hall := forall₂_of_mapM_eq_ok (mapError_eq_ok.mp h)
  simp only [stylize_eq_putAll] at hall
  constructor
  · refine hall.imp fun d d' hrun => ?_
    have hadorned := Ornament.adorned_of_putAll (ctx.config.ornaments_pairwise ctx.schema) hrun
    exact ⟨hadorned, hadorned.scaleTypes_eq⟩
  · refine mapError_eq_ok.mpr (mapM_eq_ok_of_forall₂ (List.forall₂_same.mpr fun d' hd' => ?_))
    obtain ⟨d, -, hrun⟩ := exists_of_mapM_eq_ok (mapError_eq_ok.mp h) hd'
    rw [stylize_eq_putAll] at hrun ⊢
    exact Ornament.putAll_of_done (Ornament.done_of_putAll (ctx.config.ornaments_pairwise ctx.schema) hrun)

/-- The axis gets small bands and the colour a large palette, once. -/
theorem stylizeAll_adorns_once_crowdedNames : ∃ d d' : Draft,
    build crowdedNames crowdedFields {} = .ok d ∧
      stylizeAll ⟨crowdedFields, {}⟩ [d] = .ok [d'] ∧
      (d.query.encodings.map fun e => e.field?.any fun q => q.scale.isSome) = [false, false, false] ∧
      (d'.query.encodings.map fun e => e.field?.any fun q => q.scale.isSome) = [false, true, true] ∧
      Adorned (Config.ornaments {} crowdedFields) d d' ∧ scaleTypes d' = scaleTypes d ∧
      stylizeAll ⟨crowdedFields, {}⟩ [d'] = .ok [d'] := by
  obtain ⟨d, hd⟩ : ∃ d, build crowdedNames crowdedFields {} = .ok d := ⟨_, rfl⟩
  obtain ⟨d', hstyle⟩ : ∃ d', stylizeAll ⟨crowdedFields, {}⟩ [d] = .ok [d'] := by
    cases hd
    exact ⟨_, rfl⟩
  obtain ⟨hadorned, hagain⟩ := stylizeAll_adorns_once hstyle
  obtain ⟨⟨hadorned, htypes⟩, -⟩ := List.forall₂_cons.mp hadorned
  refine ⟨d, d', hd, hstyle, ?_, ?_, hadorned, htypes, hagain⟩ <;> cases hd
  · rfl
  · cases hstyle
    rfl

end Draft
end ChartAdvisor
