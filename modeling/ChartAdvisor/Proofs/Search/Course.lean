import ChartAdvisor.Proofs.Outcome
import ChartAdvisor.Proofs.Search.Exploring
import ChartAdvisor.Search.Generate

/-!
# The course of a search

Resolving one property after another leaves, at every stage, the drafts that are explored through
the spots of the properties so far. A property is resolved after its parent, so that no choice
disturbs a slot that is still to be tried.
-/
namespace ChartAdvisor

/-- No property is resolved twice, and none after a part of it. -/
def Property.InOrder (steps : List Property) : Prop :=
  steps.Pairwise fun p q => p ≠ q ∧ p.parent? ≠ some q

theorem Property.precedence_inOrder : InOrder precedence := by
  unfold InOrder
  decide

/-- Choices for a property leave some properties alone: it is none of them, nor a parent of one. -/
def Property.QuietFor (ps : List Property) (q : Property) : Prop :=
  q ∉ ps ∧ ∀ p ∈ ps, p.parent? ≠ some q

instance (ps : List Property) (q : Property) : Decidable (q.QuietFor ps) :=
  inferInstanceAs (Decidable (_ ∧ _))

/-- What is needed for an outcome of two steps. -/
theorem Logged.of_outcome_bind {α β : Type} {x : Logged α} {f : α → Logged β} {b : β}
    (h : (x >>= f).outcome = .ok b) : ∃ a, x.outcome = .ok a ∧ (f a).outcome = .ok b := by
  rw [outcome_bind] at h
  cases hx : x.outcome with
  | error e => rw [hx] at h; contradiction
  | ok a =>
    rw [hx] at h
    exact ⟨a, rfl, h⟩

theorem Logged.of_outcome_mapError {ε α : Type} {x : Except ε α} {f : ε → Error} {a : α}
    (h : (ofExcept (x.mapError f)).outcome = .ok a) : x = .ok a := by
  cases x with
  | error e => contradiction
  | ok b => rw [Except.ok.inj h]

namespace FieldEncoding

theorem restore_self (q : FieldEncoding) (p : Property) : q.restore q p = q := by
  cases p with
  | maxBins =>
    cases q with
    | mk channel aggregate timeUnit hasFunction bin =>
      rcases bin with _ | _ | b | ⟨w, b⟩ <;> rfl
  | scaleOf part =>
    rw [restore_scaleOf]
    cases q with
    | mk channel aggregate timeUnit hasFunction bin scale =>
      rcases scale with _ | _ | s | ⟨w, s⟩ <;> simp [scale?, Toggle.inner?, Toggle.mapInner, Scale.restore]
  | _ => rfl

end FieldEncoding

theorem Encoding.restore_self (e : Encoding) (p : Property) : e.restore e p = e := by
  cases e with
  | field q => rw [restore_field, q.restore_self]
  | value c v => cases p <;> rfl
  | autoCount c b => cases p <;> rfl

namespace Draft

/-! ## Runs -/

theorem Run.append_iff {Keeps : Spot → Draft → Prop} {xs ys : List Spot} {d d' : Draft} :
    Run Keeps (xs ++ ys) d d' ↔ ∃ e, Run Keeps xs d e ∧ Run Keeps ys e d' := by
  constructor
  · intro h
    induction xs generalizing d with
    | nil => exact ⟨d, .done d, h⟩
    | cons s rest ih =>
      cases h with
      | skip passed onward =>
        obtain ⟨e, hx, hy⟩ := ih onward
        exact ⟨e, .skip passed hx, hy⟩
      | choose offered listed taken kept onward =>
        obtain ⟨e, hx, hy⟩ := ih onward
        exact ⟨e, .choose offered listed taken kept hx, hy⟩
  · rintro ⟨e, hx, hy⟩
    induction hx with
    | done => exact hy
    | skip passed _ ih => exact .skip passed (ih hy)
    | choose offered listed taken kept _ ih => exact .choose offered listed taken kept (ih hy)

/-- Runs keep the open slots and the query as it was built. -/
theorem Run.frame {Keeps : Spot → Draft → Prop} {spots : List Spot} {d d' : Draft}
    (h : Run Keeps spots d d') (hd : d.Coherent) :
    d'.Coherent ∧ d'.slots = d.slots ∧ d'.origin = d.origin :=
  h.preserves (P := fun e => e.Coherent ∧ e.slots = d.slots ∧ e.origin = d.origin)
    (fun s _ c _ ⟨hc, hs, ho⟩ _ hn =>
      have hap := alikeApart_chooseAt hc hn
      ⟨hc.chooseAt s c, hap.slots.symm.trans hs, hap.origin.symm.trans ho⟩)
    ⟨hd, rfl, rfl⟩

/-- Everything is in place in a draft that was just built. -/
theorem IsBuilt.inPlace {q : ChartQuery} {schema : Schema} {config : Config} {d : Draft}
    (h : IsBuilt q schema config d) (s : Spot) : d.InPlace s := by
  cases s with
  | mark => exact congrArg ChartQuery.mark h.query_eq
  | slot i p =>
    intro e o he ho
    rw [← h.query_eq] at ho
    obtain rfl : e = o := Option.some.inj (he.symm.trans ho)
    rw [e.restore_self p]

/-- What is still to be resolved stays in place. -/
theorem Run.inPlace {Keeps : Spot → Draft → Prop} {d₀ d : Draft} (h₀ : d₀.Coherent)
    (built : ∀ s, d₀.InPlace s) {done : List Property} (h : Run Keeps (done.flatMap d₀.spots) d₀ d)
    {p : Property} (order : ∀ q ∈ done, q ≠ p ∧ q.parent? ≠ some p) {s : Spot}
    (hs : s ∈ d₀.spots p) : d.InPlace s := by
  refine (h.preserves (P := fun e => e.Coherent ∧ e.InPlace s) ?_ ⟨h₀, built s⟩).2
  rintro t ht c _ ⟨hc, hplace⟩ - hn
  obtain ⟨q, hq, ht⟩ := List.mem_flatMap.mp ht
  obtain ⟨hqp, hparent⟩ := order q hq
  refine ⟨hc.chooseAt t c, hplace.chooseAt hc hn ?_ ?_⟩
  · rintro rfl
    rw [mem_spots_iff] at hs ht
    grind
  · rintro i p' q' rfl rfl
    rw [mem_spots_iff] at hs ht
    grind

theorem named_of_mem_spots {d : Draft} {p : Property} {s : Spot} (hs : s ∈ d.spots p) :
    d.choicesAt? s = none ∨ (d.nameAt? s).isSome := by
  rw [mem_spots_iff] at hs
  split at hs
  · subst hs
    cases hm : d.slots.mark with
    | none => exact .inl (by rw [choicesAt?, hm]; rfl)
    | some k => exact .inr (by rw [nameAt?, hm]; rfl)
  · obtain ⟨i, hi, rfl⟩ := hs
    have hslot : (d.slots.slot? i p).isSome := (List.mem_filter.mp hi).2
    exact .inr (by rw [nameAt?, Option.isSome_map]; exact hslot)

/-! ## Spots in order -/

/-- The spots of a property are about that property. -/
theorem property_of_mem_spots {d : Draft} {p : Property} {s : Spot} (hs : s ∈ d.spots p) :
    s.property = p := by
  rw [mem_spots_iff] at hs
  split at hs
  · next hp => rw [hs, hp]; rfl
  · obtain ⟨i, -, rfl⟩ := hs
    rfl

/-- An order of properties is an order of their spots. -/
theorem pairwise_spots {R : Property → Property → Prop} (hR : ∀ p, R p p) (d : Draft)
    {steps : List Property} (h : steps.Pairwise R) :
    (steps.flatMap d.spots).Pairwise fun s t => R s.property t.property := by
  rw [List.pairwise_flatMap]
  refine ⟨fun p _ => List.pairwise_of_forall_mem_list fun s hs t ht => ?_, h.imp ?_⟩
  · rw [property_of_mem_spots hs, property_of_mem_spots ht]
    exact hR p
  · intro p q hpq s hs t ht
    rwa [property_of_mem_spots hs, property_of_mem_spots ht]

/-- A choice leaves alone what lies neither at its spot nor inside it. -/
theorem agree_chooseAt {d : Draft} (h : d.Coherent) {s : Spot} {c : Choice}
    (hn : (d.chooseAt s c).2 = none) {ps : List Property} (hquiet : s.property.QuietFor ps) :
    d.Agree ps (d.chooseAt s c).1 := by
  obtain ⟨hs, hparent⟩ := hquiet
  have hap := alikeApart_chooseAt h hn
  refine .of_encodings h (h.chooseAt s c) (congrArg _ hap.slots) ?_ (fun hm => ?_) ?_
  · have hconfig := congrArg ChartQuery.config hap.settings
    exact hconfig
  · rw [hap.mark fun e => hs (by rw [e]; exact hm)]
  · cases s with
    | mark =>
      rw [encodings_chooseAt_mark]
      exact List.forall₂_same.mpr fun e _ => .refl ps e
    | slot i p =>
      obtain ⟨k, e, o, after, hk, he, ho, hc, ha⟩ := assign_eq_none h hn
      rw [chooseAt_slot, ha]
      refine forall₂_set (Encoding.Agree.refl ps) he ⟨?_, fun q hq => ?_⟩
      · have hkind := Encoding.kind_choose e o p c
        rw [hc] at hkind
        exact hkind.symm
      · have hstanding := Encoding.standing_choose_of_ne (h.kind_eq he ho)
          (fun hqp : q = p => hs (by rw [hqp] at hq; exact hq)) (hparent q hq) c
        rw [hc] at hstanding
        exact hstanding.symm

/-! ## Stages -/

/-- Resolving a property goes well if every walk does, and finds what the walks find one after the
other. -/
theorem resolve_eq_ok_iff {ctx : Context} {p : Property} {drafts found : List Draft} :
    (resolve ctx p drafts).outcome = .ok found ↔ (∀ d ∈ drafts, (d.walk ctx p).failure = none) ∧
      drafts.flatMap (fun d => (d.walk ctx p).found) = found := by
  induction drafts generalizing found with
  | nil => simp [resolve]
  | cons d rest ih =>
    rw [resolve, List.forall_mem_cons, List.flatMap_cons, Logged.outcome_bind, Walk.logged]
    cases hf : (d.walk ctx p).failure with
    | some e => exact ⟨nofun, fun h => absurd h.1.1 nofun⟩
    | none =>
      simp only [Logged.outcome_bind, Logged.outcome_pure]
      constructor
      · intro h
        obtain ⟨first, hfirst, h⟩ := bind_eq_ok.mp h
        obtain ⟨more, hmore, h⟩ := bind_eq_ok.mp h
        obtain ⟨hall, rfl⟩ := ih.mp hmore
        rw [Except.ok.inj hfirst]
        exact ⟨⟨trivial, hall⟩, Except.ok.inj h⟩
      · rintro ⟨⟨-, hall⟩, rfl⟩
        exact bind_eq_ok.mpr ⟨_, rfl, bind_eq_ok.mpr ⟨_, ih.mpr ⟨hall, rfl⟩, rfl⟩⟩

theorem resolve_eq_ok {ctx : Context} {p : Property} {drafts found : List Draft}
    (h : (resolve ctx p drafts).outcome = .ok found) :
    (∀ d ∈ drafts, (d.walk ctx p).failure = none) ∧
      ∀ f, f ∈ found ↔ ∃ d ∈ drafts, f ∈ (d.walk ctx p).found := by
  obtain ⟨hall, rfl⟩ := resolve_eq_ok_iff.mp h
  exact ⟨hall, fun f => List.mem_flatMap⟩

/-- Where no draft is left, nothing more is found. -/
theorem resolveAll_nil (ctx : Context) (steps : List Property) :
    (resolveAll ctx steps []).outcome = .ok [] := by
  cases steps <;> rfl

/-- One property is resolved after another. -/
theorem resolveAll_cons_eq_ok_iff {ctx : Context} {p : Property} {rest : List Property}
    {drafts found : List Draft} : (resolveAll ctx (p :: rest) drafts).outcome = .ok found ↔
      ∃ next, (resolve ctx p drafts).outcome = .ok next ∧
        (resolveAll ctx rest next).outcome = .ok found := by
  rw [resolveAll, Logged.outcome_bind]
  have onward (next : List Draft) : ((do
      Logged.tell (.stepped p drafts.length next.length)
      if next.isEmpty then return [] else resolveAll ctx rest next : Logged (List Draft)).outcome) =
      (resolveAll ctx rest next).outcome := by
    rw [Logged.outcome_bind]
    cases next with
    | nil => exact (resolveAll_nil ctx rest).symm
    | cons d more => rfl
  simp only [onward]
  exact bind_eq_ok

/-- What each walk hands on to the drafts that it finds holds of all that are left in the end. -/
theorem resolveAll_found {ctx : Context} {P : List Property → Draft → Prop} (done : List Property)
    {steps : List Property}
    (step : ∀ before p after, done ++ steps = before ++ p :: after → ∀ d, P before d →
      (d.walk ctx p).failure = none → ∀ f ∈ (d.walk ctx p).found, P (before ++ [p]) f)
    {drafts found : List Draft} (h : ∀ d ∈ drafts, P done d)
    (ok : (resolveAll ctx steps drafts).outcome = .ok found) : ∀ f ∈ found, P (done ++ steps) f := by
  induction steps generalizing done drafts with
  | nil =>
    obtain rfl : drafts = found := Except.ok.inj ok
    rwa [List.append_nil]
  | cons p rest ih =>
    obtain ⟨next, hnext, ok⟩ := resolveAll_cons_eq_ok_iff.mp ok
    obtain ⟨hall, hmem⟩ := resolve_eq_ok hnext
    have hsplit : done ++ p :: rest = (done ++ [p]) ++ rest := by simp
    rw [hsplit]
    refine ih (done ++ [p]) (fun before q after heq => step before q after (hsplit.trans heq))
      (fun f hf => ?_) ok
    obtain ⟨d, hd, hfd⟩ := (hmem f).mp hf
    exact step done p rest rfl d (h d hd) (hall d hd) f hfd

/-- The drafts at a stage of the search are those that are explored through the properties so
far, up to nulls. -/
structure Stage (ctx : Context) (d₀ : Draft) (done : List Property) (drafts : List Draft) : Prop where
  sound : ∀ f ∈ drafts, ∃ c, Twin [] f c ∧ Explored ctx (done.flatMap d₀.spots) d₀ c
  complete : ∀ c, Explored ctx (done.flatMap d₀.spots) d₀ c → ∃ f ∈ drafts, Twin [] f c

theorem Twin.pending {d copy : Draft} (h : Twin [] d copy) (spots : List Spot) :
    Twin spots d copy :=
  ⟨h.coherent, h.copy_coherent, h.alike, fun n => (h.remembered n).imp_right
    fun ⟨_, _, hs, _⟩ => absurd hs List.not_mem_nil⟩

/-- Walking through a property from a draft, beside a copy to which a run leads. -/
theorem Twin.walk {ctx : Context} {Keeps : Spot → Draft → Prop} {d₀ : Draft} (h₀ : d₀.Coherent)
    (built : ∀ s, d₀.InPlace s) {done : List Property} {p : Property}
    (order : ∀ q ∈ done, q ≠ p ∧ q.parent? ≠ some p) {f c : Draft} (htwin : Twin [] f c)
    (hc : Run Keeps (done.flatMap d₀.spots) d₀ c)
    (hn : (f.walk ctx p).failure = none) :
    ∃ copies, List.Forall₂ (Twin []) (f.walk ctx p).found copies ∧
      ∀ c', c' ∈ copies ↔ Explored ctx (d₀.spots p) c c' := by
  obtain ⟨hcoh, hslots, -⟩ := hc.frame h₀
  have hspots : f.spots p = d₀.spots p := spots_congr (htwin.alike.slots.trans hslots) p
  rw [walk_eq_walkSpots, hspots] at hn ⊢
  have ready : ∀ s ∈ d₀.spots p, c.Ready s := fun s hs =>
    (named_of_mem_spots (d := c) (by rwa [spots_congr hslots])).imp_right fun hname =>
      ⟨hname, hc.inPlace h₀ built order hs⟩
  obtain ⟨copies, hfound, htwins, -⟩ :=
    walkSpots_matches ctx (d₀.spots p) (hosts_spots d₀ p) f c (htwin.pending _) ready hn
  exact ⟨copies, htwins, mem_copySearch_iff hfound⟩

/-- One more property is resolved. -/
theorem Stage.resolve {ctx : Context} {d₀ : Draft} (h₀ : d₀.Coherent) (built : ∀ s, d₀.InPlace s)
    {done : List Property} {p : Property} (order : ∀ q ∈ done, q ≠ p ∧ q.parent? ≠ some p)
    {drafts found : List Draft} (h : Stage ctx d₀ done drafts)
    (ok : (Draft.resolve ctx p drafts).outcome = .ok found) : Stage ctx d₀ (done ++ [p]) found := by
  obtain ⟨hall, hmem⟩ := resolve_eq_ok ok
  have hflat : (done ++ [p]).flatMap d₀.spots = done.flatMap d₀.spots ++ d₀.spots p := by simp
  constructor
  · intro f hf
    obtain ⟨d, hd, hf⟩ := (hmem f).mp hf
    obtain ⟨c, htwin, hc⟩ := h.sound d hd
    obtain ⟨copies, htwins, hcopies⟩ := htwin.walk h₀ built order hc (hall d hd)
    obtain ⟨c', hc', htwin'⟩ := exists_of_forall₂ htwins hf
    exact ⟨c', htwin', by rw [hflat]; exact Run.append_iff.mpr ⟨c, hc, (hcopies c').mp hc'⟩⟩
  · intro c' hc'
    rw [hflat] at hc'
    obtain ⟨c, hc, hc'⟩ := Run.append_iff.mp hc'
    obtain ⟨d, hd, htwin⟩ := h.complete c hc
    obtain ⟨copies, htwins, hcopies⟩ := htwin.walk h₀ built order hc (hall d hd)
    obtain ⟨f, hf, htwin'⟩ := exists_of_forall₂ htwins.flip ((hcopies c').mpr hc')
    exact ⟨f, (hmem f).mpr ⟨d, hd, hf⟩, htwin'⟩

/-- All properties are resolved, or no draft is left on the way. -/
theorem Stage.resolveAll {ctx : Context} {d₀ : Draft} (h₀ : d₀.Coherent)
    (built : ∀ s, d₀.InPlace s) {done steps : List Property}
    (order : Property.InOrder (done ++ steps)) {drafts found : List Draft}
    (h : Stage ctx d₀ done drafts) (ok : (Draft.resolveAll ctx steps drafts).outcome = .ok found) :
    Stage ctx d₀ (done ++ steps) found := by
  induction steps generalizing done drafts with
  | nil =>
    cases ok
    rwa [List.append_nil]
  | cons p rest ih =>
    obtain ⟨next, hr, ok⟩ := resolveAll_cons_eq_ok_iff.mp ok
    have hpairs := List.pairwise_append.mp order
    have hnext := h.resolve h₀ built (fun q hq => hpairs.2.2 q hq p (List.mem_cons_self ..)) hr
    have hsplit : done ++ p :: rest = (done ++ [p]) ++ rest := by simp
    rw [hsplit] at order ⊢
    exact ih order hnext ok

theorem steps_eq_ok {d : Draft} {config : Config} {steps : List Property}
    (h : d.steps config = .ok steps) : steps = config.propertyPrecedence.filter d.slots.has := by
  unfold Draft.steps at h
  simp only at h
  split at h
  · contradiction
  · exact (Except.ok.inj h).symm

theorem start_eq_ok {q : ChartQuery} {ctx : Context} {d : Draft}
    (h : (Draft.start q ctx).outcome = .ok d) : build q ctx.schema ctx.config = .ok d := by
  unfold Draft.start at h
  obtain ⟨d', hd', h⟩ := Logged.of_outcome_bind h
  obtain ⟨-, -, h⟩ := Logged.of_outcome_bind h
  obtain rfl : d' = d := Except.ok.inj h
  exact Logged.of_outcome_mapError hd'

/-- What is found last, once it is styled as the configuration asks. -/
def finish (ctx : Context) (found : List Draft) : Except Error (List Draft) :=
  if ctx.config.stylize then stylizeAll ctx found else .ok found

/-- A search goes well if the query can be built, every open property has its turn, and both the
walks and the styling go well. -/
theorem generate_eq_ok_iff {q : ChartQuery} {ctx : Context} {drafts : List Draft} :
    (generate q ctx).outcome = .ok drafts ↔
      ∃ d₀ steps found, build q ctx.schema ctx.config = .ok d₀ ∧ d₀.steps ctx.config = .ok steps ∧
        (resolveAll ctx steps [d₀]).outcome = .ok found ∧ finish ctx found = .ok drafts := by
  have hfinish (found : List Draft) : ((do
      let found ← if ctx.config.stylize then .ofExcept (stylizeAll ctx found) else pure found
      Logged.tell (.timed "generate")
      return found : Logged (List Draft)).outcome) = finish ctx found := by
    unfold finish
    split
    · rw [Logged.outcome_bind]
      cases stylizeAll ctx found <;> rfl
    · rfl
  constructor
  · intro h
    unfold generate at h
    obtain ⟨d₀, hd₀, h⟩ := Logged.of_outcome_bind h
    obtain ⟨steps, hsteps, h⟩ := Logged.of_outcome_bind h
    obtain ⟨-, -, h⟩ := Logged.of_outcome_bind h
    obtain ⟨found, hfound, h⟩ := Logged.of_outcome_bind h
    exact ⟨d₀, steps, found, start_eq_ok hd₀, Logged.of_outcome_mapError hsteps, hfound,
      (hfinish found).symm.trans h⟩
  · rintro ⟨d₀, steps, found, hb, hsteps, hfound, hdrafts⟩
    unfold generate Draft.start
    rw [hb]
    simp only [Logged.outcome_bind]
    refine bind_eq_ok.mpr ⟨d₀, rfl, bind_eq_ok.mpr ⟨steps, by rw [hsteps]; rfl, ?_⟩⟩
    refine bind_eq_ok.mpr ⟨(), rfl, bind_eq_ok.mpr ⟨found, hfound, ?_⟩⟩
    exact (hfinish found).trans hdrafts

/-- A search that ends well and styles nothing finds exactly what is explored, in whatever order the
properties are resolved, if parts come after what they are parts of. -/
theorem stage_of_generate_inOrder {q : ChartQuery} {ctx : Context} {drafts : List Draft}
    (order : Property.InOrder ctx.config.propertyPrecedence)
    (plain : ctx.config.stylize = false) (h : (generate q ctx).outcome = .ok drafts) :
    ∃ d₀, build q ctx.schema ctx.config = .ok d₀ ∧
      Stage ctx d₀ (ctx.config.propertyPrecedence.filter d₀.slots.has) drafts := by
  obtain ⟨d₀, steps, found, hb, hsteps, hfound, hdrafts⟩ := generate_eq_ok_iff.mp h
  rw [finish, plain, if_neg Bool.false_ne_true] at hdrafts
  obtain rfl := Except.ok.inj hdrafts
  have hbuilt := isBuilt_of_build hb
  refine ⟨d₀, hb, ?_⟩
  rw [steps_eq_ok hsteps] at hfound
  have hstart : Stage ctx d₀ [] [d₀] := by
    refine ⟨fun f hf => ?_, fun c hc => ?_⟩
    · rw [List.mem_singleton.mp hf]
      exact ⟨d₀, .refl hbuilt.coherent [], .done d₀⟩
    · cases hc
      exact ⟨d₀, List.mem_singleton_self d₀, .refl hbuilt.coherent []⟩
  have order : Property.InOrder ([] ++ ctx.config.propertyPrecedence.filter d₀.slots.has) :=
    List.Pairwise.filter _ order
  exact hstart.resolveAll hbuilt.coherent hbuilt.inPlace order hfound

theorem stage_of_generate {q : ChartQuery} {ctx : Context} {drafts : List Draft}
    (precedence : ctx.config.propertyPrecedence = Property.precedence)
    (plain : ctx.config.stylize = false) (h : (generate q ctx).outcome = .ok drafts) :
    ∃ d₀, build q ctx.schema ctx.config = .ok d₀ ∧
      Stage ctx d₀ (Property.precedence.filter d₀.slots.has) drafts := by
  have hstage := stage_of_generate_inOrder (precedence ▸ Property.precedence_inOrder) plain h
  rwa [precedence] at hstage

end Draft
end ChartAdvisor
