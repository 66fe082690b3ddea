import ChartAdvisor.Proofs.Search.Copying

/-!
# Runs of choices

A run makes a choice at every spot of a list that is not passed by, each one listed for its spot.
A draft is explored when a run leads to it of which no choice is refused, and the search on copies
finds exactly the drafts that are explored.
-/
namespace ChartAdvisor
namespace Draft

/-- A draft that comes of listed choices at the spots of a list, each of which keeps the draft. -/
inductive Run (Keeps : Spot → Draft → Prop) : List Spot → Draft → Draft → Prop
  | done (d : Draft) : Run Keeps [] d d
  | skip {s : Spot} {rest : List Spot} {d d' : Draft} (passed : d.choicesAt? s = none)
      (onward : Run Keeps rest d d') : Run Keeps (s :: rest) d d'
  | choose {s : Spot} {rest : List Spot} {d d' : Draft} {choices : List Choice} {c : Choice}
      (offered : d.choicesAt? s = some choices) (listed : c ∈ choices)
      (taken : (d.chooseAt s c).2 = none) (kept : Keeps s (d.chooseAt s c).1)
      (onward : Run Keeps rest (d.chooseAt s c).1 d') : Run Keeps (s :: rest) d d'

/-- A draft that comes of choices none of which is refused. -/
abbrev Explored (ctx : Context) : List Spot → Draft → Draft → Prop :=
  Run fun s d => d.verdictAt ctx s = .ok none

theorem tryEach_eq_ok {attempt : Choice → Except Error (List Draft)} {choices : List Choice}
    {found : List Draft} (h : tryEach attempt choices = .ok found) :
    (∀ c ∈ choices, ∃ l, attempt c = .ok l) ∧
      ∀ d', d' ∈ found ↔ ∃ c ∈ choices, ∃ l, attempt c = .ok l ∧ d' ∈ l := by
  induction choices generalizing found with
  | nil =>
    cases h
    simp
  | cons c rest ih =>
    rw [tryEach] at h
    cases hc : attempt c with
    | error e => rw [hc] at h; contradiction
    | ok l =>
      cases hr : tryEach attempt rest with
      | error e => rw [hc, hr] at h; contradiction
      | ok more =>
        rw [hc, hr] at h
        cases h
        obtain ⟨hall, hmem⟩ := ih hr
        refine ⟨List.forall_mem_cons.mpr ⟨⟨l, hc⟩, hall⟩, fun d' => ?_⟩
        rw [List.mem_append, hmem]
        simp [hc]

/-- Exactly what is explored is found. -/
theorem mem_copySearch_iff {ctx : Context} {spots : List Spot} {d : Draft} {found : List Draft}
    (h : copySearch ctx spots d = .ok found) (d' : Draft) :
    d' ∈ found ↔ Explored ctx spots d d' := by
  induction spots generalizing d found with
  | nil =>
    cases h
    rw [List.mem_singleton]
    exact ⟨fun e => by rw [e]; exact .done d, fun e => by cases e; rfl⟩
  | cons s rest ih =>
    rw [copySearch] at h
    cases hs : d.choicesAt? s with
    | none =>
      rw [hs] at h
      rw [ih h]
      refine ⟨.skip hs, fun e => ?_⟩
      cases e with
      | skip _ onward => exact onward
      | choose offered => rw [hs] at offered; contradiction
    | some choices =>
      rw [hs] at h
      obtain ⟨hall, hmem⟩ := tryEach_eq_ok h
      rw [hmem]
      constructor
      · rintro ⟨c, hc, l, hl, hd'⟩
        obtain ⟨taken, kept, hnext⟩ := of_mem_tryOnCopy hl hd'
        exact .choose hs hc taken kept ((ih hnext).mp hd')
      · intro e
        cases e with
        | skip passed => rw [hs] at passed; contradiction
        | choose offered listed taken kept onward =>
          rename_i c
          obtain rfl := Option.some.inj (hs.symm.trans offered)
          obtain ⟨l, hl⟩ := hall c listed
          have hnext := (tryOnCopy_of_kept taken kept).symm.trans hl
          exact ⟨c, listed, l, hl, (ih hnext).mpr onward⟩

/-- What every choice preserves holds of whatever a run leads to. -/
theorem Run.preserves {Keeps : Spot → Draft → Prop} {P : Draft → Prop} {spots : List Spot}
    {d d' : Draft} (h : Run Keeps spots d d')
    (step : ∀ s ∈ spots, ∀ c d, P d → (d.choicesAt? s).isSome → (d.chooseAt s c).2 = none →
      P (d.chooseAt s c).1)
    (hd : P d) : P d' := by
  induction h with
  | done => exact hd
  | skip _ _ ih => exact ih (fun t ht => step t (List.mem_cons_of_mem _ ht)) hd
  | choose offered _ taken _ _ ih =>
    exact ih (fun t ht => step t (List.mem_cons_of_mem _ ht))
      (step _ (List.mem_cons_self ..) _ _ hd (Option.isSome_of_mem offered) taken)

/-! ## What walks preserve -/

/-- A walk that ends well leaves a draft with a property and finds drafts with another. -/
def Finds (P F : Draft → Prop) (w : Walk) : Prop :=
  w.failure = none → P w.draft ∧ ∀ f ∈ w.found, F f

theorem Finds.tryAll {P F : Draft → Prop} {attempt : Choice → Draft → Walk}
    (step : ∀ c d, P d → Finds P F (attempt c d)) {choices : List Choice} {d : Draft} (hd : P d) :
    Finds P F (Walk.tryAll choices attempt d) := by
  induction choices generalizing d with
  | nil => exact fun _ => ⟨hd, fun _ hf => absurd hf List.not_mem_nil⟩
  | cons c rest ih =>
    intro hn
    rw [Walk.tryAll_cons] at hn ⊢
    obtain ⟨hfirst, hrest, hfound, hdraft⟩ := Walk.andThen_of_failure_eq_none hn
    obtain ⟨hc, hcf⟩ := step c d hd hfirst
    obtain ⟨hr, hrf⟩ := ih hc hrest
    rw [hfound, hdraft]
    exact ⟨hr, fun f hf => (List.mem_append.mp hf).elim (hcf f) (hrf f)⟩

theorem Finds.tryInPlace {ctx : Context} {P F : Draft → Prop} {s : Spot} {next : Draft → Walk}
    {c : Choice} {d : Draft} (hd : (d.chooseAt s c).2 = none → P (d.chooseAt s c).1)
    (hnext : (d.chooseAt s c).2 = none → Finds P F (next (d.chooseAt s c).1)) :
    Finds P F (Draft.tryInPlace ctx s next c d) := by
  intro hn
  obtain ⟨taken, ⟨-, hnil, hdraft⟩ | ⟨-, heq⟩⟩ := tryInPlace_of_failure_eq_none hn
  · rw [hnil, hdraft]
    exact ⟨hd taken, fun _ hf => absurd hf List.not_mem_nil⟩
  · rw [heq] at hn ⊢
    exact hnext taken hn

/-- A walk that ends well leaves nothing but drafts with a property. -/
def Leaves (P : Draft → Prop) (w : Walk) : Prop :=
  w.failure = none → P w.draft ∧ ∀ f ∈ w.found, P f

/-- What every choice and its taking back preserve holds of all that a walk leaves. Choices are
made only at a spot at which one of the drafts was offered some. -/
theorem walkSpots_leaves (ctx : Context) {P : Draft → Prop} {spots : List Spot}
    (choose : ∀ s ∈ spots, (∃ d, P d ∧ (d.choicesAt? s).isSome) →
      ∀ c d, P d → (d.chooseAt s c).2 = none → P (d.chooseAt s c).1)
    (reopen : ∀ s ∈ spots, (∃ d, P d ∧ (d.choicesAt? s).isSome) →
      ∀ d, P d → (d.reopenAt s).2 = none → P (d.reopenAt s).1)
    {d : Draft} (hd : P d) : Leaves P (walkSpots ctx spots d) := by
  induction spots generalizing d with
  | nil => exact fun _ => ⟨hd, fun f hf => by rw [List.mem_singleton.mp hf]; exact hd⟩
  | cons s rest ih =>
    have ih {d : Draft} (hd : P d) : Leaves P (walkSpots ctx rest d) :=
      ih (fun t ht => choose t (List.mem_cons_of_mem _ ht))
        (fun t ht => reopen t (List.mem_cons_of_mem _ ht)) hd
    intro hn
    cases hs : d.choicesAt? s with
    | none =>
      rw [walkSpots_of_passed hs] at hn ⊢
      exact ih hd hn
    | some choices =>
      obtain ⟨_, rfl, htried, hre, hfound, hdraft⟩ := walkSpots_of_offered hs hn
      have hsome : ∃ d, P d ∧ (d.choicesAt? s).isSome := ⟨d, hd, by rw [hs]; rfl⟩
      have hstep (c : Choice) (e : Draft) (he : P e) :
          Finds P P (tryInPlace ctx s (walkSpots ctx rest) c e) :=
        have hc := choose s (List.mem_cons_self ..) hsome c e he
        .tryInPlace hc fun taken => ih (hc taken)
      obtain ⟨ht, htf⟩ := Finds.tryAll hstep hd htried
      rw [hfound, hdraft]
      exact ⟨reopen s (List.mem_cons_self ..) hsome _ ht hre, htf⟩

end Draft
end ChartAdvisor
