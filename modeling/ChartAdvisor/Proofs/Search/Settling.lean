import ChartAdvisor.Proofs.Search.Failure
import ChartAdvisor.Proofs.Search.Precedence

/-!
# A search settles what is open

Walking through a property settles it in every encoding that the search does not pass by. It stays
settled while other properties are walked through, because parts are resolved after what they are
parts of. What the search passes by, a constant above all, stays as it was built.
-/
namespace ChartAdvisor

theorem Encoding.isFrozen_of_alike {e f : Encoding} (h : e.withoutNulls = f.withoutNulls) :
    e.isFrozen = f.isFrozen :=
  isFrozen_congr (kind_congr h) (standing_congr h _)

namespace Draft

variable {ctx : Context} {d d' : Draft} {s t : Spot} {p q : Property}

/-- What was open at a spot is settled, or passed by. -/
def SettledAt (d : Draft) : Spot → Prop
  | .mark => d.slots.mark.isSome = true → d.query.mark.isOpen = false
  | .slot i p => ∀ e, d.encoding? i = some e → e.isFrozen = false → e.standing p ≠ .undecided

/-- A property is settled wherever it is not passed by. -/
def Settled (d : Draft) (p : Property) : Prop := ∀ s, s.property = p → d.SettledAt s

/-- Two drafts have the same encoding, up to nulls. -/
def AlikeAt (d d' : Draft) (i : Nat) : Prop :=
  (d'.encoding? i).map Encoding.withoutNulls = (d.encoding? i).map Encoding.withoutNulls

namespace SettledAt

theorem of_choicesAt? (h : d.choicesAt? s = none) : d.SettledAt s := by
  cases s with
  | slot i p => exact choicesAt?_slot_eq_none_iff.mp h
  | mark =>
    intro hsome
    rw [choicesAt?, Option.map_eq_none_iff] at h
    rw [h] at hsome
    contradiction

theorem of_chooseAt (h : d.Coherent) {c : Choice} (hn : (d.chooseAt s c).2 = none) :
    (d.chooseAt s c).1.SettledAt s := by
  cases s with
  | slot i p => exact fun e he _ => standing_chooseAt_ne h hn he
  | mark =>
    intro _
    obtain ⟨m, k, -, -, heq⟩ := chooseAt_mark_eq_none hn
    rw [heq]
    rfl

theorem mark_of_alikeApart (h : d.SettledAt .mark) (hap : d.AlikeApart t d') (ht : t ≠ .mark) :
    d'.SettledAt .mark := by
  unfold SettledAt
  rwa [← hap.mark ht, ← hap.slots]

theorem of_alikeAt {i : Nat} (h : d.SettledAt (.slot i p)) (halike : d.AlikeAt d' i) :
    d'.SettledAt (.slot i p) := by
  intro e he hfrozen
  rw [AlikeAt, he] at halike
  obtain ⟨e₀, he₀, heq⟩ := Option.map_eq_some_iff.mp halike.symm
  rw [← Encoding.standing_congr heq]
  exact h e₀ he₀ (by rwa [Encoding.isFrozen_of_alike heq])

end SettledAt

/-! ## What a walk leaves alone -/

theorem AlikeApart.alikeAt (h : d.AlikeApart s d') {i : Nat} (hs : ∀ p, s ≠ .slot i p) :
    d.AlikeAt d' i := (h.encoding_of_ne hs).symm

/-- What does not depend on any one of the spots on its way is kept by a walk. -/
theorem walkSpots_keeps (ctx : Context) {spots : List Spot} {P : Draft → Prop}
    (keeps : ∀ s ∈ spots, (∃ e, P e ∧ (e.choicesAt? s).isSome) →
      ∀ e e', e.AlikeApart s e' → P e → P e')
    (hd : d.Coherent) (h : P d) : Leaves (fun f => f.Coherent ∧ P f) (walkSpots ctx spots d) := by
  have keeps {s : Spot} (hs : s ∈ spots)
      (hoffered : ∃ e : Draft, (e.Coherent ∧ P e) ∧ (e.choicesAt? s).isSome) :=
    keeps s hs (hoffered.imp fun _ he => ⟨he.1.2, he.2⟩)
  exact walkSpots_leaves ctx
    (fun s hs hoffered c e he hn =>
      ⟨he.1.chooseAt s c, keeps hs hoffered e _ (alikeApart_chooseAt he.1 hn) he.2⟩)
    (fun s hs hoffered e he hn =>
      ⟨he.1.reopenAt s, keeps hs hoffered e _ (alikeApart_reopenAt he.1 hn) he.2⟩) ⟨hd, h⟩

/-- A walk does not touch an encoding in which nothing on its way is there to be tried. -/
theorem walkSpots_alikeAt (ctx : Context) {spots : List Spot} (hd : d.Coherent) {i : Nat}
    (passed : ∀ p, .slot i p ∈ spots → d.SettledAt (.slot i p)) :
    Leaves (fun f => f.Coherent ∧ d.AlikeAt f i) (walkSpots ctx spots d) := by
  refine walkSpots_keeps ctx (fun s hs hoffered e e' hap he => ?_) hd rfl
  have elsewhere : ∀ p, s ≠ .slot i p := by
    rintro p rfl
    obtain ⟨f, halike, hsome⟩ := hoffered
    rw [choicesAt?_slot_eq_none_iff.mpr ((passed p hs).of_alikeAt halike)] at hsome
    contradiction
  exact (hap.alikeAt elsewhere).trans he

/-- What is settled at a spot stays so in a walk through other encodings. -/
theorem SettledAt.walkSpots (ctx : Context) {spots : List Spot} (h : d.SettledAt s)
    (hd : d.Coherent) (hosts : ∀ t ∈ spots, hostOf s ≠ hostOf t) :
    Leaves (fun f => f.Coherent ∧ f.SettledAt s) (walkSpots ctx spots d) := by
  cases s with
  | mark =>
    have hne : ∀ t ∈ spots, t ≠ .mark := fun t ht heq => hosts t ht (by rw [heq])
    exact walkSpots_keeps ctx (fun t ht _ _ _ hap he => he.mark_of_alikeApart hap (hne t ht)) hd h
  | slot i p =>
    intro hn
    obtain ⟨⟨hc, hdraft⟩, hfound⟩ :=
      walkSpots_alikeAt ctx hd (fun q hq => absurd rfl (hosts (.slot i q) hq)) hn
    exact ⟨⟨hc, h.of_alikeAt hdraft⟩, fun f hf => ⟨(hfound f hf).1, h.of_alikeAt (hfound f hf).2⟩⟩

/-! ## What a walk settles -/

/-- Whatever is found by a walk through spots in different encodings is settled at each of them. -/
theorem walkSpots_settles (ctx : Context) {spots : List Spot}
    (hosts : spots.Pairwise fun s t => hostOf s ≠ hostOf t) (hd : d.Coherent) :
    Finds Coherent (fun f => ∀ s ∈ spots, f.SettledAt s) (walkSpots ctx spots d) := by
  induction spots generalizing d with
  | nil => exact fun _ => ⟨hd, fun _ _ s hs => absurd hs List.not_mem_nil⟩
  | cons s rest ih =>
    obtain ⟨hs, hrest⟩ := List.pairwise_cons.mp hosts
    have onward {e : Draft} (he : e.Coherent) (hsettled : e.SettledAt s) :
        Finds Coherent (fun f => ∀ t ∈ s :: rest, f.SettledAt t) (walkSpots ctx rest e) := by
      intro hn
      obtain ⟨hdraft, hfound⟩ := ih hrest he hn
      obtain ⟨-, hkept⟩ := hsettled.walkSpots ctx he hs hn
      exact ⟨hdraft, fun f hf => List.forall_mem_cons.mpr ⟨(hkept f hf).2, hfound f hf⟩⟩
    cases hoffered : d.choicesAt? s with
    | none =>
      rw [walkSpots_of_passed hoffered]
      exact onward hd (.of_choicesAt? hoffered)
    | some choices =>
      intro hn
      obtain ⟨_, rfl, htried, -, hfound, hdraft⟩ := walkSpots_of_offered hoffered hn
      have step (c : Choice) (e : Draft) (he : e.Coherent) :
          Finds Coherent (fun f => ∀ t ∈ s :: rest, f.SettledAt t)
            (tryInPlace ctx s (walkSpots ctx rest) c e) :=
        .tryInPlace (fun _ => he.chooseAt s c) fun taken =>
          onward (he.chooseAt s c) (.of_chooseAt he taken)
      obtain ⟨ht, htf⟩ := Finds.tryAll step hd htried
      rw [hfound, hdraft]
      exact ⟨ht.reopenAt s, htf⟩

/-- Values are tried only where the draft was open when it was built. -/
theorem OpenAsBuilt.settledAt_of_not_mem (h : d.OpenAsBuilt) (hd : d.Coherent)
    (hs : s ∉ d.spots s.property) : d.SettledAt s := by
  cases s with
  | mark => exact absurd (List.mem_singleton_self _) hs
  | slot i p =>
    intro e he _ hopen
    obtain ⟨o, ho⟩ := hd.exists_origin he
    have hbuilt := h i e o he ho p ((e.isOpen_iff p).mpr hopen)
    refine hs (mem_spots_iff.mpr ?_)
    rw [show (Spot.slot i p).property = p from rfl, if_neg ?_]
    · exact ⟨i, hd.mem_indices ho hbuilt, rfl⟩
    · rintro rfl
      cases o <;> simp [Encoding.isOpen, FieldEncoding.isOpen] at hbuilt

/-- A walk through a property settles it. -/
theorem settled_walk (hd : d.Coherent) (hn : (d.walk ctx p).failure = none) {f : Draft}
    (hf : f ∈ (d.walk ctx p).found) (hfc : f.Coherent) (hopen : f.OpenAsBuilt)
    (hslots : f.slots = d.slots) : f.Settled p := by
  rintro s rfl
  rw [walk_eq_walkSpots] at hn hf
  by_cases hs : s ∈ f.spots s.property
  · rw [spots_congr hslots] at hs
    exact (walkSpots_settles ctx (hosts_spots d _) hd hn).2 f hf s hs
  · exact hopen.settledAt_of_not_mem hfc hs

/-- What is settled stays so in a walk through another property, unless it is a part of that and
that is not settled. -/
theorem Settled.walk (h : d.Settled q) (hd : d.Coherent) (hqp : q ≠ p)
    (parts : q.parent? = some p → d.Settled p) (hn : (d.walk ctx p).failure = none) {f : Draft}
    (hf : f ∈ (d.walk ctx p).found) : f.Settled q := by
  rw [walk_eq_walkSpots] at hn hf
  have hne {t : Spot} (ht : t ∈ d.spots p) {s : Spot} (hs : s.property = q) : t ≠ s := by
    rintro rfl
    exact hqp (hs.symm.trans (property_of_mem_spots ht))
  intro s hs
  have hsettled := h s hs
  cases s with
  | mark =>
    have kept := walkSpots_keeps ctx (P := fun f => f.SettledAt .mark)
      (fun t ht _ _ _ hap he => he.mark_of_alikeApart hap (hne ht hs)) hd hsettled hn
    exact (kept.2 f hf).2
  | slot i q' =>
    obtain rfl : q' = q := hs
    by_cases hpassed : (∀ e, d.encoding? i = some e → e.isFrozen = true) ∨ d.Settled p
    · -- nothing is tried in the encoding
      refine hsettled.of_alikeAt ((walkSpots_alikeAt ctx hd (fun p' hp' => ?_) hn).2 f hf).2
      rcases hpassed with hfrozen | hp
      · intro e he hnot
        rw [hfrozen e he] at hnot
        contradiction
      · exact hp _ (property_of_mem_spots hp')
    · -- the slot is settled itself, and what is tried lies elsewhere
      obtain ⟨hfrozen, hp⟩ := not_or.mp hpassed
      obtain ⟨e₀, he₀, hnot⟩ : ∃ e₀, d.encoding? i = some e₀ ∧ e₀.isFrozen = false := by
        simpa using hfrozen
      have hdecided : ∀ a, d.encoding? i = some a → a.standing q' ≠ .undecided := by
        intro a ha
        obtain rfl := Option.some.inj (he₀.symm.trans ha)
        exact hsettled e₀ he₀ hnot
      have kept := walkSpots_keeps ctx
        (P := fun f => ∀ a, f.encoding? i = some a → a.standing q' ≠ .undecided)
        (fun t ht _ e e' hap he a ha => ?_) hd hdecided hn
      · exact fun a ha _ => (kept.2 f hf).2 a ha
      · have outside : ∀ r, t = .slot i r → q'.parent? ≠ some r := by
          rintro r rfl hparent
          obtain rfl : r = p := property_of_mem_spots ht
          exact hp (parts hparent)
        obtain ⟨b, hb, hstanding⟩ := hap.standing_of_ne (hne ht rfl) outside ha
        rw [← hstanding]
        exact he b hb

/-! ## A search settles everything -/

/-- A draft on the course of a search, with some properties walked through. -/
structure OnCourse (d₀ : Draft) (done : List Property) (d : Draft) : Prop where
  comes : ComesOf d₀ d
  constants : ∀ i e, d₀.encoding? i = some e → e.isValue = true → d.encoding? i = some e
  settled : ∀ p ∈ done, d.Settled p

/-- Parts are resolved after what they are parts of, if that is resolved at all. -/
def PartsAfter (steps : List Property) : Prop :=
  ∀ before q after, steps = before ++ q :: after → ∀ p ∈ steps, q.parent? = some p → p ∈ before

theorem settled_of_comesOf {d₀ : Draft} (h : ComesOf d₀ d) (hn : (d.walk ctx p).failure = none)
    {f : Draft} (hf : f ∈ (d.walk ctx p).found) : f.Settled p := by
  have hcomes := ((h.walk ctx p).leaves hn).2 f hf
  exact settled_walk h.sourced.coherent hn hf hcomes.sourced.coherent hcomes.sourced.opened
    (hcomes.slots.trans h.slots.symm)

/-- A constant is left alone by every walk. -/
theorem encoding?_walk_of_isValue (hd : d.Coherent) (hn : (d.walk ctx p).failure = none) {f : Draft}
    (hf : f ∈ (d.walk ctx p).found) {i : Nat} {e : Encoding} (he : d.encoding? i = some e)
    (hvalue : e.isValue = true) : f.encoding? i = some e := by
  rw [walk_eq_walkSpots] at hn hf
  have passed : ∀ q, .slot i q ∈ d.spots p → d.SettledAt (.slot i q) := by
    intro q _ a ha hfrozen
    obtain rfl := Option.some.inj (he.symm.trans ha)
    simp [Encoding.isFrozen, hvalue] at hfrozen
  have halike := ((walkSpots_alikeAt ctx hd passed hn).2 f hf).2
  rw [AlikeAt, he] at halike
  obtain ⟨e', he', heq⟩ := Option.map_eq_some_iff.mp halike
  have hkind : e.kind ≠ .field := by
    cases e <;> first | contradiction | exact Encoding.Kind.noConfusion
  have hkind' : e'.kind ≠ .field := by rwa [Encoding.kind_congr heq]
  rw [Encoding.withoutNulls_of_ne_field hkind, Encoding.withoutNulls_of_ne_field hkind'] at heq
  rw [he', heq]

theorem OnCourse.walk {d₀ : Draft} {done : List Property} (h : OnCourse d₀ done d)
    (parents : ∀ q ∈ done, q.parent? = some p → p ∈ done) (hn : (d.walk ctx p).failure = none)
    {f : Draft} (hf : f ∈ (d.walk ctx p).found) : OnCourse d₀ (done ++ [p]) f where
  comes := ((h.comes.walk ctx p).leaves hn).2 f hf
  constants i e he hvalue :=
    encoding?_walk_of_isValue h.comes.sourced.coherent hn hf (h.constants i e he hvalue) hvalue
  settled q hq := by
    by_cases hqp : q = p
    · exact hqp ▸ settled_of_comesOf h.comes hn hf
    · have hq : q ∈ done := (List.mem_append.mp hq).resolve_right fun hmem =>
        hqp (List.mem_singleton.mp hmem)
      exact (h.settled q hq).walk h.comes.sourced.coherent hqp
        (fun hparent => h.settled p (parents q hq hparent)) hn hf

/-- What has been resolved before a property has that as a parent only if it was resolved too. -/
theorem PartsAfter.mem_of_parent? {steps before after : List Property} (order : PartsAfter steps)
    (hsplit : steps = before ++ p :: after) : ∀ q ∈ before, q.parent? = some p → p ∈ before := by
  intro q hq hparent
  obtain ⟨l, r, rfl⟩ := List.append_of_mem hq
  exact List.mem_append_left _ (order l q (r ++ p :: after) (by simp [hsplit]) p (by simp [hsplit]) hparent)

/-- Once the search is through, every property that was resolved is settled. -/
theorem OnCourse.of_resolveAll {d₀ : Draft} {done steps : List Property} {drafts found : List Draft}
    (order : PartsAfter (done ++ steps)) (h : ∀ d ∈ drafts, OnCourse d₀ done d)
    (ok : (resolveAll ctx steps drafts).outcome = .ok found) :
    ∀ f ∈ found, OnCourse d₀ (done ++ steps) f :=
  resolveAll_found _ (fun _ _ _ hsplit _ hd hn _ hf => hd.walk (order.mem_of_parent? hsplit) hn hf) h ok

/-- Where all open properties were resolved, nothing is left open but what is passed by. -/
theorem OnCourse.settledAt {d₀ : Draft} {steps : List Property} (h : OnCourse d₀ steps d)
    {config : Config} (hsteps : d₀.steps config = .ok steps) (s : Spot) : d.SettledAt s := by
  have hslots := h.comes.slots
  by_cases hs : s ∈ d.spots s.property
  · cases s with
    | mark =>
      intro hsome
      have hmark : SlotIndex.has d₀.slots .mark = true := by rwa [← hslots]
      exact h.settled .mark (mem_steps hsteps (by decide) hmark) .mark rfl hsome
    | slot i p =>
      have hhas : d₀.slots.has p = true := by
        rw [spots_congr hslots, show (Spot.slot i p).property = p from rfl, mem_spots_iff] at hs
        split at hs
        · contradiction
        · next hp =>
          obtain ⟨j, hj, heq⟩ := hs
          obtain ⟨rfl, -⟩ := Spot.slot.inj heq
          unfold SlotIndex.has
          rw [if_neg hp]
          simp [List.ne_nil_of_mem hj]
      exact h.settled p (mem_steps hsteps p.mem_all hhas) _ rfl
  · exact h.comes.sourced.opened.settledAt_of_not_mem h.comes.sourced.coherent hs

/-- A mark that was not open when the draft was built is not open at all. -/
theorem OnCourse.mark_isOpen {d₀ : Draft} {steps : List Property} (h : OnCourse d₀ steps d)
    {config : Config} (hsteps : d₀.steps config = .ok steps) : d.query.mark.isOpen = false := by
  cases hmark : d.slots.mark with
  | some k => exact h.settledAt hsteps .mark (by rw [hmark]; rfl)
  | none =>
    rcases h.comes.sourced.mark with heq | ⟨m, ⟨k, hk, -⟩, -⟩
    · have hopened := h.comes.sourced.coherent.markOpened
      rw [hmark, ← heq] at hopened
      cases hq : d.query.mark with
      | fixed m => rfl
      | wild w => rw [hq] at hopened; contradiction
    · rw [hmark] at hk; contradiction

/-! ## Fields -/

/-- No field is open. -/
def FieldsChosen (d : Draft) : Prop := ∀ i e, d.encoding? i = some e → e.isOpen .field = false

/-- Fields are never passed by. -/
theorem fieldsChosen_iff : d.FieldsChosen ↔ d.Settled .field := by
  have hspot : d.Settled .field ↔ ∀ i, d.SettledAt (.slot i .field) :=
    ⟨fun h i => h _ rfl, fun h s hs => by
      cases s with
      | mark => contradiction
      | slot i p =>
        obtain rfl : p = .field := hs
        exact h i⟩
  rw [hspot]
  refine forall_congr' fun i => forall_congr' fun e => imp_congr_right fun _ => ?_
  rw [e.isOpen_eq, beq_eq_false_iff_ne]
  cases e with
  | field q => simp [Encoding.isFrozen, Encoding.isValue, Encoding.isDisabledAutoCount]
  | value | autoCount => simp [Encoding.standing]

/-- Once the fields have been walked through, none is open, and none comes open again. -/
theorem ComesOf.fieldsChosen_walk {d₀ : Draft} (h : ComesOf d₀ d) (ctx : Context) {p : Property}
    (hp : p = .field ∨ d.FieldsChosen) (hn : (d.walk ctx p).failure = none) :
    ∀ f ∈ (d.walk ctx p).found, f.FieldsChosen := by
  intro f hf
  rw [fieldsChosen_iff]
  by_cases hfield : p = .field
  · exact hfield ▸ settled_of_comesOf h hn hf
  · exact (fieldsChosen_iff.mp (hp.resolve_left hfield)).walk h.sourced.coherent (Ne.symm hfield)
      nofun hn hf

end Draft
end ChartAdvisor
