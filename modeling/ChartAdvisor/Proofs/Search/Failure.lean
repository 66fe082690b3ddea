import ChartAdvisor.Proofs.Draft.Sources
import ChartAdvisor.Proofs.Rules.Errors
import ChartAdvisor.Proofs.Search.Course

/-!
# How a walk fails

A walk tries listed values at slots that are there, so that no choice and no taking back is
refused. It fails only where the rules cannot judge a draft.
-/
namespace ChartAdvisor
namespace Draft

/-- What a walk leaves if it ends well has a property, and it ends badly only where the rules
cannot judge a draft with that property. -/
structure Ends (ctx : Context) (P : Draft → Prop) (w : Walk) : Prop where
  leaves : Leaves P w
  failure : ∀ e, w.failure = some e → ∃ d r, P d ∧ Unjudged ctx d r ∧ e = .rule r

namespace Ends

variable {ctx : Context} {P Q : Draft → Prop} {w : Walk}

theorem mono (h : Ends ctx P w) (himp : ∀ d, P d → Q d) : Ends ctx Q w where
  leaves hn := ⟨himp _ (h.leaves hn).1, fun f hf => himp _ ((h.leaves hn).2 f hf)⟩
  failure e he := by
    obtain ⟨d, r, hd, hr, heq⟩ := h.failure e he
    exact ⟨d, r, himp d hd, hr, heq⟩

theorem start {d : Draft} (hd : P d) : Ends ctx P (Walk.start d) where
  leaves _ := ⟨hd, fun _ hf => absurd hf List.not_mem_nil⟩
  failure _ he := by cases he

theorem keep {d : Draft} (hd : P d) : Ends ctx P (Walk.keep d) where
  leaves _ := ⟨hd, fun f hf => by rw [List.mem_singleton.mp hf]; exact hd⟩
  failure _ he := by cases he

theorem refused {d : Draft} (hd : P d) (refusals : List Refusal) : Ends ctx P { draft := d, refusals } where
  leaves _ := ⟨hd, fun _ hf => absurd hf List.not_mem_nil⟩
  failure _ he := by cases he

theorem andThen {next : Draft → Walk} (h : Ends ctx P w)
    (hnext : ∀ d, P d → Ends ctx P (next d)) : Ends ctx P (w.andThen next) where
  leaves hn := by
    obtain ⟨hw, hv, hfound, hdraft⟩ := Walk.andThen_of_failure_eq_none hn
    obtain ⟨hd, hf⟩ := h.leaves hw
    obtain ⟨hd', hf'⟩ := (hnext _ hd).leaves hv
    rw [hfound, hdraft]
    exact ⟨hd', fun f hmem => (List.mem_append.mp hmem).elim (hf f) (hf' f)⟩
  failure e he := by
    cases hw : w.failure with
    | some e' =>
      unfold Walk.andThen at he
      rw [hw] at he
      exact h.failure e he
    | none =>
      unfold Walk.andThen at he
      rw [hw] at he
      exact (hnext _ (h.leaves hw).1).failure e he

/-- Values are tried one after the other. -/
theorem tryAll {attempt : Choice → Draft → Walk} {choices : List Choice}
    (step : ∀ c ∈ choices, ∀ d, P d → Ends ctx P (attempt c d)) {d : Draft} (hd : P d) :
    Ends ctx P (Walk.tryAll choices attempt d) := by
  induction choices generalizing d with
  | nil => exact .start hd
  | cons c rest ih =>
    rw [Walk.tryAll_cons]
    exact (step c (List.mem_cons_self ..) d hd).andThen fun _ h =>
      ih (fun c hc => step c (List.mem_cons_of_mem _ hc)) h

/-- A choice that is taken is judged, and the walk goes on if nothing is said against it. -/
theorem tryInPlace {s : Spot} {next : Draft → Walk} {c : Choice} {d : Draft}
    (taken : (d.chooseAt s c).2 = none) (hd : P (d.chooseAt s c).1)
    (there : ∀ i p, s = .slot i p → ((d.chooseAt s c).1.encoding? i).isSome)
    (hnext : ∀ d, P d → Ends ctx P (next d)) : Ends ctx P (Draft.tryInPlace ctx s next c d) := by
  unfold Draft.tryInPlace
  rcases hc : d.chooseAt s c with ⟨d', error⟩
  rw [hc] at taken hd there
  obtain rfl : error = none := taken
  show Ends ctx P (Walk.judge d' (d'.verdictAt ctx s) next)
  unfold Walk.judge
  cases hv : d'.verdictAt ctx s with
  | error r =>
    refine ⟨fun hn => (nomatch hn), fun e he => ⟨d', r, hd, unjudged_of_verdictAt there hv, ?_⟩⟩
    exact (Option.some.inj he).symm
  | ok v =>
    cases v with
    | some refusal => exact .refused hd [refusal]
    | none => exact hnext d' hd

end Ends

theorem mem_listed_iff {d : Draft} {s : Spot} {c : Choice} : c ∈ d.listed s ↔ d.Lists s c := by
  cases s with
  | mark =>
    rw [listed, Lists]
    cases d.slots.mark with
    | none => simp
    | some k => simp [toChoice, eq_comm]
  | slot i p =>
    rw [listed, Lists]
    cases d.slots.slot? i p <;> simp

/-- What is tried at a spot is listed for it. -/
theorem lists_of_choicesAt? {d : Draft} {s : Spot} {choices : List Choice}
    (h : d.choicesAt? s = some choices) : ∀ c ∈ choices, d.Lists s c := by
  obtain rfl := eq_listed_of_choicesAt? h
  exact fun c => mem_listed_iff.mp

/-- What is tried at a spot is open there, so the part in which the spot lies is there. -/
theorem hasParent_of_choicesAt? {d : Draft} {s : Spot} (h : (d.choicesAt? s).isSome) :
    d.HasParent s := by
  cases s with
  | mark => trivial
  | slot i p =>
    intro r hr e he
    obtain ⟨e', he', -, hopen⟩ := choicesAt?_slot_isSome_iff.mp h
    obtain rfl := Option.some.inj (he.symm.trans he')
    exact Encoding.standing_parent_ne hr ((e.isOpen_iff p).mpr hopen)

/-- There is an encoding wherever values are listed. -/
theorem Coherent.encoding?_isSome {d : Draft} (h : d.Coherent) {s : Spot} {c : Choice}
    (hc : d.Lists s c) : ∀ i p, s = .slot i p → (d.encoding? i).isSome := by
  rintro i p rfl
  obtain ⟨k, hk, -⟩ := hc
  obtain ⟨o, ho, -⟩ := h.exists_origin_of_slot? hk
  obtain ⟨e, he⟩ := h.exists_encoding ho
  exact Option.isSome_of_mem he

/-- A walk through spots in different encodings fails only where the rules do, whatever the
choices and their taking back preserve. -/
theorem walkSpots_ends (ctx : Context) {spots : List Spot}
    (hosts : spots.Pairwise fun s t => hostOf s ≠ hostOf t) {P : Draft → Prop}
    (sourced : ∀ d, P d → d.Sourced)
    (named : ∀ s ∈ spots, ∀ d, P d → d.choicesAt? s = none ∨ (d.nameAt? s).isSome)
    (choose : ∀ s ∈ spots, ∀ c d, P d → d.Lists s c → (d.chooseAt s c).2 = none →
      P (d.chooseAt s c).1)
    (reopen : ∀ s ∈ spots, ∀ d, P d → (d.reopenAt s).2 = none → P (d.reopenAt s).1)
    {d : Draft} (hd : P d) : Ends ctx P (walkSpots ctx spots d) := by
  induction spots generalizing P d with
  | nil => exact .keep hd
  | cons s rest ih =>
    obtain ⟨hs, hrest⟩ := List.pairwise_cons.mp hosts
    cases hoffered : d.choicesAt? s with
    | none =>
      rw [walkSpots_of_passed hoffered]
      exact ih hrest sourced (fun t ht => named t (List.mem_cons_of_mem _ ht))
        (fun t ht => choose t (List.mem_cons_of_mem _ ht))
        (fun t ht => reopen t (List.mem_cons_of_mem _ ht)) hd
    | some choices =>
      rw [walkSpots, hoffered]
      -- While values are tried at the spot, the part in which it lies stays there.
      let Q (e : Draft) : Prop := P e ∧ e.slots = d.slots ∧ e.HasParent s
      have hQ : Q d := ⟨hd, rfl, hasParent_of_choicesAt? (by rw [hoffered]; rfl)⟩
      have elsewhere {t : Spot} (ht : t ∈ rest) {e e' : Draft} (hap : e.AlikeApart t e') (he : Q e)
          (hP : P e') : Q e' := by
        refine ⟨hP, hap.slots.symm.trans he.2.1, he.2.2.of_alikeApart hap (.inr ?_)⟩
        rintro i p q rfl rfl
        exact hs _ ht rfl
      have onward {e : Draft} (he : Q e) : Ends ctx Q (walkSpots ctx rest e) :=
        ih hrest (fun e he => sourced e he.1)
          (fun t ht e he => named t (List.mem_cons_of_mem _ ht) e he.1)
          (fun t ht c e he hc hn => elsewhere ht (alikeApart_chooseAt (sourced e he.1).coherent hn) he
            (choose t (List.mem_cons_of_mem _ ht) c e he.1 hc hn))
          (fun t ht e he hn => elsewhere ht (alikeApart_reopenAt (sourced e he.1).coherent hn) he
            (reopen t (List.mem_cons_of_mem _ ht) e he.1 hn)) he
      have step : ∀ c ∈ choices, ∀ e, Q e →
          Ends ctx Q (tryInPlace ctx s (walkSpots ctx rest) c e) := by
        intro c hc e he
        have hlisted : e.Lists s c := lists_congr he.2.1.symm (lists_of_choicesAt? hoffered c hc)
        have hsourced := sourced e he.1
        have taken := hsourced.chooseAt_eq_none hlisted he.2.2
        have hap := alikeApart_chooseAt hsourced.coherent taken
        refine .tryInPlace taken ⟨choose s (List.mem_cons_self ..) c e he.1 hlisted taken,
          hap.slots.symm.trans he.2.1, he.2.2.of_alikeApart hap (.inl rfl)⟩ ?_ fun _ h => onward h
        exact (hsourced.coherent.chooseAt s c).encoding?_isSome (lists_congr hap.slots hlisted)
      have htried := (Ends.tryAll step hQ).mono (Q := fun e => P e ∧ e.slots = d.slots)
        fun e he => ⟨he.1, he.2.1⟩
      refine (htried.andThen fun e he => ?_).mono fun e he => he.1
      have hname : (e.nameAt? s).isSome := by
        rcases named s (List.mem_cons_self ..) d hd with hnone | hname
        · rw [hoffered] at hnone; contradiction
        · cases s <;> simpa only [nameAt?, he.2] using hname
      have hcoh := (sourced e he.1).coherent
      have taken := hcoh.reopenAt_eq_none hname
      have hslots := (alikeApart_reopenAt hcoh taken).slots.symm.trans he.2
      have hP := reopen s (List.mem_cons_self ..) e he.1 taken
      rcases hr : e.reopenAt s with ⟨e', error⟩
      rw [hr] at taken hslots hP
      obtain rfl : error = none := taken
      exact .start ⟨hP, hslots⟩

/-! ## Walks of a search -/

/-- A draft that comes of listed choices from a draft that was built. -/
structure ComesOf (d₀ d : Draft) : Prop where
  sourced : d.Sourced
  slots : d.slots = d₀.slots
  origin : d.origin = d₀.origin

theorem ComesOf.chooseAt {d₀ d : Draft} (h : ComesOf d₀ d) {s : Spot} {c : Choice}
    (hc : d.Lists s c) (hn : (d.chooseAt s c).2 = none) : ComesOf d₀ (d.chooseAt s c).1 :=
  have hap := alikeApart_chooseAt h.sourced.coherent hn
  ⟨h.sourced.chooseAt hc hn, hap.slots.symm.trans h.slots, hap.origin.symm.trans h.origin⟩

theorem ComesOf.reopenAt {d₀ d : Draft} (h : ComesOf d₀ d) {s : Spot}
    (hn : (d.reopenAt s).2 = none) : ComesOf d₀ (d.reopenAt s).1 :=
  have hap := alikeApart_reopenAt h.sourced.coherent hn
  ⟨h.sourced.reopenAt hn, hap.slots.symm.trans h.slots, hap.origin.symm.trans h.origin⟩

theorem ComesOf.walk {d₀ d : Draft} (h : ComesOf d₀ d) (ctx : Context) (p : Property) :
    Ends ctx (ComesOf d₀) (d.walk ctx p) := by
  rw [walk_eq_walkSpots]
  refine walkSpots_ends ctx (hosts_spots d p) (fun _ he => he.sourced) (fun s hs e he => ?_)
    (fun s _ c e he => he.chooseAt) (fun s _ e he => he.reopenAt) h
  exact named_of_mem_spots (by rwa [spots_congr (he.slots.trans h.slots.symm)])

/-! ## Searches -/

section Searches

variable {ctx : Context} {P : Draft → Prop} {drafts found : List Draft}

/-- Resolving a property keeps what its walks keep. -/
theorem Ends.of_resolve {p : Property} (walk : ∀ d, P d → Ends ctx P (d.walk ctx p))
    (h : ∀ d ∈ drafts, P d) (ok : (resolve ctx p drafts).outcome = .ok found) : ∀ f ∈ found, P f := by
  obtain ⟨hall, hmem⟩ := resolve_eq_ok ok
  intro f hf
  obtain ⟨d, hd, hfd⟩ := (hmem f).mp hf
  exact ((walk d (h d hd)).leaves (hall d hd)).2 f hfd

/-- A search keeps what all walks keep. -/
theorem Ends.of_resolveAll (walk : ∀ p d, P d → Ends ctx P (d.walk ctx p)) {steps : List Property}
    (h : ∀ d ∈ drafts, P d) (ok : (resolveAll ctx steps drafts).outcome = .ok found) :
    ∀ f ∈ found, P f := by
  exact resolveAll_found (P := fun _ => P) []
    (fun _ p _ _ d hd hn => ((walk p d hd).leaves hn).2) h ok

end Searches

end Draft
end ChartAdvisor
