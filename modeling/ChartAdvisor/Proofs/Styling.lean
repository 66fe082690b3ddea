import ChartAdvisor.Proofs.Ornaments
import ChartAdvisor.Proofs.Rules.Errors

/-!
# What styling does

Styling sets parts of scales that are absent, and counts the values of fields on some channels. It sets
band sizes on axes with steps and palettes on colours for names, and nothing else. It opens and closes
nothing, it leaves the fields of a draft as they are, and where all of them are chosen it fails only for
want of one in the schema.
-/
namespace ChartAdvisor

/-- The schema lacks a field that is in use. -/
def Schema.Lacks (schema : Schema) (used : String → Prop) (e : SchemaError) : Prop :=
  ∃ name, used name ∧ name ≠ "*" ∧ schema.field? name = none ∧ e = .fieldNotFound name

/-- A change of scales that opens and closes nothing. -/
def Scale.KeepsOpen (f : Scale → Scale) : Prop := ∀ s part, (f s).isOpen part = s.isOpen part

theorem Scale.keepsOpen_bandSize (size : UInt32) :
    KeepsOpen fun s => { s with bandSize := s.bandSize.or (some (.fixed size)) } := by
  intro s part
  cases part with
  | bandSize =>
    simp only [isOpen, get]
    cases s.bandSize <;> rfl
  | _ => rfl

theorem Scale.keepsOpen_range (palette : String) :
    KeepsOpen fun s => { s with range := s.range.or (some (.fixed (.text palette))) } := by
  intro s part
  cases part with
  | range =>
    simp only [isOpen, get]
    cases s.range <;> rfl
  | _ => rfl

namespace Draft

variable {schema : Schema} {d : Draft}

theorem Adorns.keepsOpen {q : FieldEncoding} {f : Scale → Scale} (h : Adorns q f) :
    Scale.KeepsOpen f := by
  cases h with
  | bands => exact Scale.keepsOpen_bandSize _
  | palette => exact Scale.keepsOpen_range _

/-! ## Attempts to style -/

/-- What an attempt to style a draft leaves, and what it can fail with. -/
structure Styles (P : Draft → Prop) (F : SchemaError → Prop) (r : Except SchemaError Draft) :
    Prop where
  kept : ∀ d, r = .ok d → P d
  failed : ∀ e, r = .error e → F e

/-- A property of drafts that setting absent parts of a scale keeps, and with which values can be
counted but for some errors. -/
structure Stylable (schema : Schema) (P : Draft → Prop) (F : SchemaError → Prop) : Prop where
  put : ∀ {d : Draft} {i : Nat} {q : FieldEncoding}, P d → d.query.encodings[i]? = some (.field q) →
    ∀ f, Adorns q f → P (d.putField i (withScale q f))
  counts : ∀ {d : Draft} {q : FieldEncoding} {e : SchemaError}, P d →
    .field q ∈ d.query.encodings → schema.cardinality q = .error e → F e

section Styles

variable {P : Draft → Prop} {F : SchemaError → Prop}

theorem Styles.ok (h : P d) : Styles P F (.ok d) where
  kept _ he := Except.ok.inj he ▸ h
  failed _ he := nomatch he

theorem Styles.error {e : SchemaError} (h : F e) : Styles P F (.error e) where
  kept _ he := nomatch he
  failed _ he := Except.error.inj he ▸ h

theorem Styles.bind {r : Except SchemaError Draft} (h : Styles P F r)
    {f : Draft → Except SchemaError Draft} (hf : ∀ d, P d → Styles P F (f d)) :
    Styles P F (r >>= f) := by
  cases r with
  | error e => exact .error (h.failed e rfl)
  | ok d => exact hf d (h.kept d rfl)

namespace Stylable

variable (hP : Stylable schema P F)
include hP

theorem putOrnament (h : P d) (o : Ornament schema) : Styles P F (o.put d) := by
  cases hq : d.fieldOn? o.channel with
  | none => exact Ornament.put_of_none hq ▸ .ok h
  | some found =>
    obtain ⟨i, q⟩ := found
    obtain ⟨hi, hchannel⟩ := fieldOn?_eq_some hq
    cases hasks : o.asks d.channelUsed q with
    | error e =>
      rw [Ornament.put_of_error hq hasks]
      exact .error (hP.counts h (List.mem_of_getElem? hi) (o.fails hasks))
    | ok asked =>
      rw [Ornament.put_of_ok hq hasks]
      cases asked with
      | true => exact .ok (hP.put h hi _ (o.adorns hchannel hasks))
      | false => exact .ok h

theorem putAll (h : P d) (os : List (Ornament schema)) : Styles P F (Ornament.putAll os d) := by
  induction os generalizing d with
  | nil => exact .ok h
  | cons o os ih =>
    rw [Ornament.putAll_cons]
    exact (hP.putOrnament h o).bind fun _ h => ih h

theorem stylize (h : P d) (config : Config) : Styles P F (d.stylize schema config) :=
  stylize_eq_putAll schema config d ▸ hP.putAll h (config.ornaments schema)

end Stylable
end Styles

/-! ## Fields -/

/-- Every field is chosen, and one of those in use. -/
def FieldsAmong (used : String → Prop) (d : Draft) : Prop :=
  ∀ q, .field q ∈ d.query.encodings → ∃ name, q.field = .fixed name ∧ used name

theorem field_withScale (q : FieldEncoding) (f : Scale → Scale) : (withScale q f).field = q.field := by
  unfold withScale
  split <;> rfl

/-- The values of a field that is chosen can be counted, if the schema has the field. -/
theorem FieldsAmong.lacks {used : String → Prop} (h : d.FieldsAmong used) {q : FieldEncoding}
    (hq : .field q ∈ d.query.encodings) {e : SchemaError} (he : schema.cardinality q = .error e) :
    schema.Lacks used e := by
  obtain ⟨name, hname, hused⟩ := h q hq
  rcases Schema.cardinality_eq_error he with ⟨-, hopen⟩ | ⟨name', hname', hstar, hf, rfl⟩
  · rw [FieldEncoding.isOpen, hname] at hopen
    contradiction
  · obtain rfl := Slot.fixed.inj (hname.symm.trans hname')
    exact ⟨name, hused, hstar, hf, rfl⟩

theorem stylable_fieldsAmong (used : String → Prop) :
    Stylable schema (FieldsAmong used) (schema.Lacks used) where
  put h hi f _ := by
    intro r hr
    rcases List.mem_or_eq_of_mem_set hr with hr | heq
    · exact h r hr
    · rw [Encoding.field.inj heq, field_withScale]
      exact h _ (List.mem_of_getElem? hi)
  counts h hq he := h.lacks hq he

/-- Styling fails only for want of a field in the schema. -/
theorem stylizeAll_eq_error {ctx : Context} {used : String → Prop} {drafts : List Draft}
    (h : ∀ d ∈ drafts, d.FieldsAmong used) {e : Error} (he : stylizeAll ctx drafts = .error e) :
    ∃ e', ctx.schema.Lacks used e' ∧ e = .schema e' := by
  unfold stylizeAll at he
  cases hm : drafts.mapM (Draft.stylize ctx.schema ctx.config) with
  | ok l => rw [hm] at he; contradiction
  | error e' =>
    rw [hm] at he
    obtain ⟨d, hd, hs⟩ := exists_of_mapM_eq_error hm
    exact ⟨e', ((stylable_fieldsAmong used).stylize (h d hd) ctx.config).failed e' hs,
      (Except.error.inj he).symm⟩

/-! ## Open slots -/

/-- An encoding as styling may leave it: as open as it was, and the same unless it is a field. -/
structure Restyles (e f : Encoding) : Prop where
  kind : f.kind = e.kind
  isOpen : ∀ p, f.isOpen p = e.isOpen p
  same : e.kind ≠ .field → f = e

/-- A draft as styling may leave it. -/
structure Restyled (d d' : Draft) : Prop where
  mark : d'.query.mark = d.query.mark
  encodings : List.Forall₂ Restyles d.query.encodings d'.query.encodings

theorem isOpen_withScale {f : Scale → Scale} (hf : Scale.KeepsOpen f) (q : FieldEncoding)
    (p : Property) : (withScale q f).isOpen p = q.isOpen p := by
  unfold withScale
  split
  · next hs =>
    cases p with
    | scaleOf part =>
      have hpart : (f {}).isOpen part = false := by
        rw [hf]
        cases part <;> rfl
      simp [FieldEncoding.isOpen, FieldEncoding.scale?, hs, Toggle.inner?, hpart]
    | scale => simp [FieldEncoding.isOpen, hs, Toggle.isOpen]
    | _ => rfl
  · next s hs =>
    cases p with
    | scaleOf part => simp [FieldEncoding.isOpen, FieldEncoding.scale?, hs, Toggle.inner?, hf s part]
    | scale => simp [FieldEncoding.isOpen, hs, Toggle.isOpen]
    | _ => rfl
  · rfl

theorem Restyles.refl (e : Encoding) : Restyles e e := ⟨rfl, fun _ => rfl, fun _ => rfl⟩

theorem Restyles.trans {e f g : Encoding} (h : Restyles e f) (h' : Restyles f g) : Restyles e g where
  kind := h'.kind.trans h.kind
  isOpen p := (h'.isOpen p).trans (h.isOpen p)
  same hk := (h'.same (h.kind ▸ hk)).trans (h.same hk)

theorem Restyled.refl (d : Draft) : d.Restyled d :=
  ⟨rfl, List.forall₂_same.mpr fun e _ => .refl e⟩

theorem stylable_restyled (d₀ : Draft) : Stylable schema (Restyled d₀) fun _ => True where
  put {d i q} h hi f hf := by
    refine ⟨h.mark, ?_⟩
    have hone : List.Forall₂ Restyles d.query.encodings (d.putField i (withScale q f)).query.encodings :=
      forall₂_set Restyles.refl hi ⟨rfl, isOpen_withScale hf.keepsOpen q, fun hk => absurd rfl hk⟩
    exact forall₂_trans (R := Restyles) .trans h.encodings hone
  counts _ _ _ := trivial

/-- Styling opens and closes nothing. -/
theorem restyled_of_stylize {config : Config} {d' : Draft} (h : d.stylize schema config = .ok d') :
    d.Restyled d' :=
  ((stylable_restyled d).stylize (.refl d) config).kept d' h

/-! ## Drafts that look alike -/

section Alike

variable {config : Config} {d' : Draft} {ps : List Property}

theorem agree_withScale (q : FieldEncoding) (f : Scale → Scale) :
    (withScale q f).Agree stylingInputs q := by
  intro p hp
  unfold withScale
  split
  all_goals
    simp only [stylingInputs, List.mem_cons, List.not_mem_nil, or_false] at hp
    rcases hp with rfl | rfl | rfl | rfl | rfl | rfl | rfl <;> rfl

theorem agree_putField {i : Nat} {q : FieldEncoding} (hi : d.query.encodings[i]? = some (.field q))
    (f : Scale → Scale) : d.Agree stylingInputs (d.putField i (withScale q f)) where
  outline := rfl
  config := rfl
  mark _ := rfl
  encodings := forall₂_set (.refl _) hi ⟨rfl, fun p hp => (agree_withScale q f p hp).symm⟩
  used _ _ _ := rfl

/-- The first fields on a channel in drafts that agree. -/
theorem Agree.fieldOn?_cases (h : d.Agree ps d') (hc : .channel ∈ ps) (c : Channel) :
    (d.fieldOn? c = none ∧ d'.fieldOn? c = none) ∨ ∃ i q r, d.fieldOn? c = some (i, q) ∧
      d'.fieldOn? c = some (i, r) ∧ q.Agree ps r := by
  have hfields : Option.Rel (fun a b => a.1 = b.1 ∧ FieldEncoding.Agree ps a.2 b.2) (d.fieldOn? c)
      (d'.fieldOn? c) := by
    refine findSome?_rel_of_forall₂ (forall₂_zipIdx h.encodings 0) ?_
    rintro ⟨e, i⟩ ⟨e', j⟩ ⟨he, rfl⟩
    rcases he.field_cases with ⟨q, r, rfl, rfl, hqr⟩ | ⟨hnone, hnone'⟩
    · have hchannel : q.channel.is c = r.channel.is c := he.channel_is hc c
      simp only [hchannel]
      split
      · exact .some ⟨rfl, hqr⟩
      · exact .none
    · cases e <;> cases e' <;> first | contradiction | exact .none
  generalize d.fieldOn? c = x, d'.fieldOn? c = y at hfields
  cases hfields with
  | none => exact .inl ⟨rfl, rfl⟩
  | @some x y hxy =>
    obtain ⟨i, q⟩ := x
    obtain ⟨j, r⟩ := y
    obtain ⟨rfl, hqr⟩ := hxy
    exact .inr ⟨i, q, r, rfl, rfl, hqr⟩

/-- Two attempts, the first of which succeeds if the second does, with drafts that agree. -/
def StyledAlike (x y : Except SchemaError Draft) : Prop :=
  ∀ f', y = .ok f' → ∃ f, x = .ok f ∧ f.Agree stylingInputs f'

theorem StyledAlike.ok (h : d.Agree stylingInputs d') : StyledAlike (.ok d) (.ok d') :=
  fun _ ok => Except.ok.inj ok ▸ ⟨d, rfl, h⟩

theorem StyledAlike.bind {x y : Except SchemaError Draft} {f g : Draft → Except SchemaError Draft}
    (h : StyledAlike x y) (hfg : ∀ d d', d.Agree stylingInputs d' → StyledAlike (f d) (g d')) :
    StyledAlike (x >>= f) (y >>= g) := by
  intro f' ok
  obtain ⟨e', he', ok⟩ := bind_eq_ok.mp ok
  obtain ⟨e, he, hagree⟩ := h e' he'
  obtain ⟨f, hf, hff'⟩ := hfg e e' hagree f' ok
  exact ⟨f, bind_eq_ok.mpr ⟨e, he, hf⟩, hff'⟩

theorem agree_adorn {i : Nat} (h : d.query.encodings[i]? = some (.field q)) (o : Ornament schema)
    (asked : Bool) : d.Agree stylingInputs (if asked then d.putField i (o.adorn q) else d) := by
  cases asked with
  | true => exact agree_putField h _
  | false => exact .refl _ _

/-- Whether an ornament is put makes no difference to what styling goes by. -/
theorem Agree.putOrnament (h : d.Agree stylingInputs d') (o : Ornament schema) :
    StyledAlike (o.put d) (o.put d') := by
  intro f' ok
  rcases h.fieldOn?_cases (by decide) o.channel with ⟨hnone, hnone'⟩ | ⟨i, q, r, hq, hr, hqr⟩
  · obtain rfl := Except.ok.inj ((Ornament.put_of_none hnone').symm.trans ok)
    exact ⟨d, Ornament.put_of_none hnone, h⟩
  · rcases Ornament.put_cases ok with ⟨hnone, -⟩ | ⟨j, r', asked, hr', hasks, rfl⟩
    · exact nomatch hr.symm.trans hnone
    · obtain ⟨rfl, rfl⟩ := Prod.mk.inj (Option.some.inj (hr.symm.trans hr'))
      rw [← funext (h.used (by decide) (by decide))] at hasks
      obtain ⟨asked', hasks'⟩ := o.tells hqr hasks
      exact ⟨_, Ornament.put_of_ok hq hasks', (agree_adorn (getElem?_of_fieldOn? hq) o asked').symm.trans
        (h.trans (agree_adorn (getElem?_of_fieldOn? hr) o asked))⟩

theorem Agree.putAll (h : d.Agree stylingInputs d') (os : List (Ornament schema)) :
    StyledAlike (Ornament.putAll os d) (Ornament.putAll os d') := by
  induction os generalizing d d' with
  | nil => exact .ok h
  | cons o os ih =>
    rw [Ornament.putAll_cons, Ornament.putAll_cons]
    exact (h.putOrnament o).bind fun _ _ h => ih h

/-- A draft that agrees on what styling goes by with one that can be styled can be styled. -/
theorem Agree.stylize (h : d.Agree stylingInputs d') (schema : Schema) (config : Config) :
    StyledAlike (d.stylize schema config) (d'.stylize schema config) := by
  rw [stylize_eq_putAll, stylize_eq_putAll]
  exact h.putAll (config.ornaments schema)

end Alike

end Draft
end ChartAdvisor
