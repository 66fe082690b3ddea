import ChartAdvisor.Proofs.Search.Distinct
import ChartAdvisor.Proofs.Search.Pending

/-!
# Two walks abreast

A walk that lists fewer values, or under rules that refuse more, goes along with one that lists more
under rules that refuse less. What it finds is found by the other walk as well, in the same order. For
that, values that only the other walk tries must leave no trace on what it tries next: all that a walk
leaves behind lies at spots that are still to be tried, and at each of them a choice is made before
anything is found.
-/
namespace ChartAdvisor

namespace Spot

/-- A slot of the same property in another encoding. -/
def Beside (s t : Spot) : Prop := ∃ i, t = .slot i s.property ∧ Draft.hostOf s ≠ some i

theorem Beside.host_ne {s t : Spot} (h : s.Beside t) : Draft.hostOf t ≠ Draft.hostOf s := by
  obtain ⟨i, rfl, hi⟩ := h
  exact Ne.symm hi

end Spot

namespace Draft

variable {ctx : Context} {d d₀ e : Draft} {s t : Spot} {spots pending rest : List Spot}

theorem beside_spots (d : Draft) (p : Property) : (d.spots p).Pairwise Spot.Beside := by
  by_cases hp : p = .mark
  · rw [spots, if_pos hp]
    exact List.pairwise_singleton _ _
  · refine (hosts_spots d p).imp_of_mem fun hs ht hne => ?_
    rw [mem_spots_iff, if_neg hp] at hs ht
    obtain ⟨i, -, rfl⟩ := hs
    obtain ⟨j, -, rfl⟩ := ht
    exact ⟨j, rfl, hne⟩

/-! ## Drafts on their way -/

/-- Values are offered at a spot of a list. -/
def OfferedIn (spots : List Spot) (d : Draft) (t : Spot) : Prop := t ∈ spots ∧ (d.choicesAt? t).isSome

/-- A draft on its way through spots: it differs from what it was at most where values were offered, and
offers what it did at the spots that are still to be tried. -/
structure Underway (spots pending : List Spot) (d₀ d : Draft) : Prop where
  coherent : d.Coherent
  slots : d.slots = d₀.slots
  agree : AgreeOff (OfferedIn spots d₀) d₀ d
  offers : ∀ t ∈ pending, d.choicesAt? t = d₀.choicesAt? t

namespace Underway

theorem refl (hd : d.Coherent) (spots pending : List Spot) : Underway spots pending d d :=
  ⟨hd, rfl, .refl _ d, fun _ _ => rfl⟩

/-- A choice where values were offered leaves the draft on its way. -/
theorem chooseAt (h : Underway (s :: rest) rest d₀ d) (hosts : ∀ t ∈ rest, s.Beside t)
    (offered : (d₀.choicesAt? s).isSome) {c : Choice} (taken : (d.chooseAt s c).2 = none) :
    Underway (s :: rest) rest d₀ (d.chooseAt s c).1 where
  coherent := h.coherent.chooseAt s c
  slots := (alikeApart_chooseAt h.coherent taken).slots.symm.trans h.slots
  agree := h.agree.trans ((agreeOff_chooseAt h.coherent taken).mono fun t ht => by
    rw [ht]
    exact ⟨List.mem_cons_self .., offered⟩)
  offers t ht := by
    rw [← (alikeApart_chooseAt h.coherent taken).choicesAt?_eq (hosts t ht).host_ne.symm]
    exact h.offers t ht

/-- A walk through the other spots leaves the draft on its way. -/
theorem trans (h : Underway (s :: rest) rest d₀ d) (h' : Underway rest rest d e) :
    Underway (s :: rest) rest d₀ e where
  coherent := h'.coherent
  slots := h'.slots.trans h.slots
  agree := h.agree.trans (h'.agree.mono fun t ⟨ht, hoffered⟩ =>
    ⟨List.mem_cons_of_mem _ ht, by rwa [← h.offers t ht]⟩)
  offers t ht := (h'.offers t ht).trans (h.offers t ht)

/-- In a draft on its way all but the spot that is tried and the spots after it is as it was. -/
theorem agree_tried (h : Underway (s :: rest) rest d₀ d) :
    AgreeOff (fun t => t = s ∨ OfferedIn rest d₀ t) d₀ d :=
  h.agree.mono fun _ ⟨ht, hoffered⟩ =>
    (List.mem_cons.mp ht).imp_right fun ht => ⟨ht, hoffered⟩

/-- Once the choice at a spot is taken back, values are offered there again. -/
theorem reopenAt (h : Underway (s :: rest) rest d₀ d) (hosts : ∀ t ∈ rest, s.Beside t)
    (offered : (d₀.choicesAt? s).isSome) (hn : (d.reopenAt s).2 = none) :
    Underway (s :: rest) (s :: rest) d₀ (d.reopenAt s).1 where
  coherent := h.coherent.reopenAt s
  slots := (alikeApart_reopenAt h.coherent hn).slots.symm.trans h.slots
  agree := h.agree.trans ((agreeOff_reopenAt h.coherent hn).mono fun t ht => by
    rw [ht]
    exact ⟨List.mem_cons_self .., offered⟩)
  offers t ht := by
    have hslots := (alikeApart_reopenAt h.coherent hn).slots.symm.trans h.slots
    rcases List.mem_cons.mp ht with rfl | ht
    · have hagain := h.agree_tried.offered_reopenAt (fun u hu => (hosts u hu.1).host_ne) h.coherent
        offered hn
      rw [choicesAt?_of_isSome hagain, choicesAt?_of_isSome offered, listed_congr hslots]
    · rw [← (alikeApart_reopenAt h.coherent hn).choicesAt?_eq (hosts t ht).host_ne.symm]
      exact h.offers t ht

/-- A value that is tried leaves the draft on its way, if the rest of the walk does. -/
theorem tryInPlace (h : Underway (s :: rest) rest d₀ d) (hosts : ∀ t ∈ rest, s.Beside t)
    (offered : (d₀.choicesAt? s).isSome)
    (onward : ∀ e : Draft, e.Coherent → (walkSpots ctx rest e).failure = none →
      Underway rest rest e (walkSpots ctx rest e).draft) {c : Choice}
    (ok : (Draft.tryInPlace ctx s (walkSpots ctx rest) c d).failure = none) :
    Underway (s :: rest) rest d₀ (Draft.tryInPlace ctx s (walkSpots ctx rest) c d).draft := by
  obtain ⟨taken, ⟨-, -, hdraft⟩ | ⟨-, heq⟩⟩ := tryInPlace_of_failure_eq_none ok
  · rw [hdraft]
    exact h.chooseAt hosts offered taken
  · rw [heq] at ok ⊢
    have hchosen := h.chooseAt hosts offered taken
    exact hchosen.trans (onward _ hchosen.coherent ok)

theorem tryAll (h : Underway (s :: rest) rest d₀ d) (hosts : ∀ t ∈ rest, s.Beside t)
    (offered : (d₀.choicesAt? s).isSome)
    (onward : ∀ e : Draft, e.Coherent → (walkSpots ctx rest e).failure = none →
      Underway rest rest e (walkSpots ctx rest e).draft) {choices : List Choice}
    (ok : (Walk.tryAll choices (Draft.tryInPlace ctx s (walkSpots ctx rest)) d).failure = none) :
    Underway (s :: rest) rest d₀
      (Walk.tryAll choices (Draft.tryInPlace ctx s (walkSpots ctx rest)) d).draft := by
  have step (c : Choice) (e : Draft) (he : Underway (s :: rest) rest d₀ e) :
      Finds (Underway (s :: rest) rest d₀) (fun _ => True)
        (Draft.tryInPlace ctx s (walkSpots ctx rest) c e) := fun hn =>
    ⟨he.tryInPlace hosts offered onward hn, fun _ _ => trivial⟩
  exact (Finds.tryAll step h ok).1

end Underway

/-- A walk leaves a draft that offers again what was offered, and differs only where it was. -/
theorem underway_walkSpots (ctx : Context) (hosts : spots.Pairwise Spot.Beside) (hd : d.Coherent)
    (ok : (walkSpots ctx spots d).failure = none) :
    Underway spots spots d (walkSpots ctx spots d).draft := by
  induction spots generalizing d with
  | nil => exact .refl hd [] []
  | cons s rest ih =>
    obtain ⟨hs, hrest⟩ := List.pairwise_cons.mp hosts
    cases offered : d.choicesAt? s with
    | none =>
      rw [walkSpots_of_passed offered] at ok ⊢
      have h := ih hrest hd ok
      have hagree := h.agree.mono (G := OfferedIn (s :: rest) d) fun t ht =>
        ⟨List.mem_cons_of_mem _ ht.1, ht.2⟩
      refine ⟨h.coherent, h.slots, hagree, List.forall_mem_cons.mpr ⟨?_, h.offers⟩⟩
      have hnone := h.agree.offered_eq (s := s) fun t ht => (hs t ht.1).host_ne
      rw [offered] at hnone ⊢
      exact Option.isSome_eq_false_iff.mp hnone.symm |> Option.isNone_iff_eq_none.mp
    | some choices =>
      obtain ⟨tried, rfl, htried, hreopen, -, hdraft⟩ := walkSpots_of_offered offered ok
      have offered : (d.choicesAt? s).isSome := by rw [offered]; rfl
      have hunderway := (Underway.refl hd (s :: rest) rest).tryAll hs offered
        (fun _ he hok => ih hrest he hok) htried
      rw [hdraft]
      exact hunderway.reopenAt hs offered hreopen

/-! ## Going along -/

/-- A walk goes along with one that ends well if it ends well too, which is given or sure, and finds the
same but for what is gone. -/
def Follows (sure : Prop) (R : Draft → Draft → Prop) (gone : Draft → Prop) (v w : Walk) : Prop :=
  w.failure = none → sure ∨ v.failure = none → v.failure = none ∧ Thinned R gone v.found w.found

section Follows

variable {sure : Prop} {R : Draft → Draft → Prop} {gone : Draft → Prop}

theorem Follows.tryAll {P Q : Draft → Prop} {attempt attempt' : Choice → Draft → Walk}
    (keepsP : ∀ c a, P a → (attempt c a).failure = none → P (attempt c a).draft)
    (keepsQ : ∀ c b, Q b → (attempt' c b).failure = none → Q (attempt' c b).draft)
    {choices : List Choice}
    (step : ∀ c ∈ choices, ∀ a b, P a → Q b → Follows sure R gone (attempt c a) (attempt' c b))
    {a b : Draft} (ha : P a) (hb : Q b) :
    Follows sure R gone (Walk.tryAll choices attempt a) (Walk.tryAll choices attempt' b) := by
  induction choices generalizing a b with
  | nil => exact fun _ _ => ⟨rfl, .nil⟩
  | cons c rest ih =>
    intro ok hsure
    rw [Walk.tryAll_cons] at ok hsure ⊢
    rw [Walk.tryAll_cons]
    obtain ⟨hfirst', hrest', hfound', -⟩ := Walk.andThen_of_failure_eq_none ok
    obtain ⟨hfirst, hthin⟩ := step c (List.mem_cons_self ..) a b ha hb hfirst'
      (hsure.imp_right fun h => (Walk.andThen_of_failure_eq_none h).1)
    rw [Walk.failure_andThen hfirst] at hsure
    obtain ⟨hrest, hthin'⟩ := ih (fun c hc => step c (List.mem_cons_of_mem _ hc))
      (keepsP c a ha hfirst) (keepsQ c b hb hfirst') hrest' hsure
    have hok := (Walk.failure_andThen hfirst).trans hrest
    obtain ⟨-, -, hfound, -⟩ := Walk.andThen_of_failure_eq_none hok
    rw [hfound, hfound']
    exact ⟨hok, hthin.append hthin'⟩

end Follows

/-! ## Two drafts abreast -/

/-- Two drafts at some spots that differ at most where values are offered; the first lists the values of
the second that are kept, and a record of another value marks what is gone. -/
structure Abreast (keep : Spot → Choice → Bool) (gone : Draft → Prop) (spots : List Spot)
    (a b : Draft) : Prop where
  coherent : a.Coherent
  coherent' : b.Coherent
  takes : ∀ i p c, a.Lists (.slot i p) c → p.takes c = true
  agree : AgreeOff (OfferedIn spots a) a b
  offers : ∀ t ∈ spots, (a.choicesAt? t).isSome = (b.choicesAt? t).isSome
  lists : ∀ t ∈ spots, a.listed t = (b.listed t).filter (keep t)
  dropped : ∀ t ∈ spots, ∀ n ∈ b.nameAt? t, ∀ c, keep t c = false → ∀ f : Draft,
    f.assignment.lookup n = some c → gone f

namespace Abreast

variable {keep : Spot → Choice → Bool} {gone : Draft → Prop} {a b a' b' : Draft}

/-- At a spot that both pass by, nothing has to be tried. -/
theorem tail (h : Abreast keep gone (s :: rest) a b) (passed : a.choicesAt? s = none) :
    Abreast keep gone rest a b where
  coherent := h.coherent
  coherent' := h.coherent'
  takes := h.takes
  agree := h.agree.mono fun t ⟨ht, hoffered⟩ => by
    rcases List.mem_cons.mp ht with rfl | ht
    · rw [passed] at hoffered
      contradiction
    · exact ⟨ht, hoffered⟩
  offers t ht := h.offers t (List.mem_cons_of_mem _ ht)
  lists t ht := h.lists t (List.mem_cons_of_mem _ ht)
  dropped t ht := h.dropped t (List.mem_cons_of_mem _ ht)

/-- The same choice brings the drafts together at the spot, whatever was tried there before. -/
theorem chooseAt (h : Abreast keep gone (s :: rest) a b) (hosts : ∀ t ∈ rest, s.Beside t)
    (offered : (a.choicesAt? s).isSome) (ha : Underway (s :: rest) rest a a')
    (hb : Underway (s :: rest) rest b b') {c : Choice} (taken : (a'.chooseAt s c).2 = none)
    (taken' : (b'.chooseAt s c).2 = none) :
    Abreast keep gone rest (a'.chooseAt s c).1 (b'.chooseAt s c).1 := by
  have offered' : (b.choicesAt? s).isSome := by rwa [← h.offers s (List.mem_cons_self ..)]
  have hchosen := ha.chooseAt hosts offered taken
  have hchosen' := hb.chooseAt hosts offered' taken'
  have hbetween : AgreeOff (fun t => t = s ∨ OfferedIn rest (a'.chooseAt s c).1 t) a' b' := by
    have hagree : AgreeOff (OfferedIn (s :: rest) a) a' b' :=
      (ha.agree.symm.trans h.agree).trans (hb.agree.mono fun t ⟨ht, hoffered⟩ =>
        ⟨ht, by rwa [h.offers t ht]⟩)
    refine hagree.mono fun t ⟨ht, hoffered⟩ => (List.mem_cons.mp ht).imp_right fun ht => ⟨ht, ?_⟩
    rwa [hchosen.offers t ht]
  refine ⟨hchosen.coherent, hchosen'.coherent, fun i p c hc => h.takes i p c ?_,
    hbetween.chooseAt ha.coherent hb.coherent taken taken', fun t ht => ?_, fun t ht => ?_,
    fun t ht n hn => ?_⟩
  · exact lists_congr hchosen.slots hc
  · rw [hchosen.offers t ht, hchosen'.offers t ht, h.offers t (List.mem_cons_of_mem _ ht)]
  · rw [listed_congr hchosen.slots, listed_congr hchosen'.slots, h.lists t (List.mem_cons_of_mem _ ht)]
  · rw [nameAt?_congr hchosen'.slots] at hn
    exact h.dropped t (List.mem_cons_of_mem _ ht) n hn

/-- After a choice at a spot drafts abreast at the others get alike verdicts. -/
theorem verdictAt_eq (h : Abreast keep gone rest a b) (hosts : ∀ t ∈ rest, s.Beside t) (ctx : Context) :
    (a.verdictAt ctx s).map Option.isSome = (b.verdictAt ctx s).map Option.isSome := by
  refine h.agree.verdictAt_eq h.coherent h.coherent' (fun t ⟨ht, hoffered⟩ => ?_)
    (fun t ht => (hosts t ht.1).host_ne) ctx
  obtain ⟨i, hi, -⟩ := hosts t ht
  exact ⟨i, hi, hoffered, by rwa [← h.offers t ht]⟩

end Abreast

/-! ## Walks abreast -/

section Walks

variable {keep : Spot → Choice → Bool} {gone : Draft → Prop} {ctx ctx' : Context} {a b a' b' : Draft}

/-- A value that both try. -/
theorem Abreast.tryInPlace (h : Abreast keep gone (s :: rest) a b) (hosts : ∀ t ∈ rest, s.Beside t)
    (looser : Looser ctx ctx') (others : ctx = ctx' ∨ ∀ f, gone f)
    (onward : ∀ a b, Abreast keep gone rest a b →
      Follows (ctx = ctx') (AgreeOff fun _ => False) gone (walkSpots ctx rest a) (walkSpots ctx' rest b))
    (offered : (a.choicesAt? s).isSome) (ha : Underway (s :: rest) rest a a')
    (hb : Underway (s :: rest) rest b b') {c : Choice} (hc : c ∈ a.listed s) :
    Follows (ctx = ctx') (AgreeOff fun _ => False) gone
      (Draft.tryInPlace ctx s (walkSpots ctx rest) c a')
      (Draft.tryInPlace ctx' s (walkSpots ctx' rest) c b') := by
  intro ok hsure
  obtain ⟨taken', hcases'⟩ := tryInPlace_of_failure_eq_none ok
  have hlists : a'.Lists s c :=
    lists_congr ha.slots.symm (lists_of_choicesAt? (choicesAt?_of_isSome offered) c hc)
  have taken : (a'.chooseAt s c).2 = none := by
    refine ha.coherent.chooseAt_eq_none hlists (fun i p hs => ?_)
      (ha.agree_tried.hasParent (fun t ht => (hosts t ht.1).host_ne) offered)
    subst hs
    exact h.takes i p c (lists_congr ha.slots hlists)
  have hnext := h.chooseAt hosts offered ha hb taken taken'
  -- what the rules of the second walk say of its draft, they say of the first draft as well
  obtain ⟨v', hv'⟩ : ∃ v', (b'.chooseAt s c).1.verdictAt ctx' s = .ok v' :=
    hcases'.elim (fun h => ⟨_, h.1.choose_spec⟩) fun h => ⟨_, h.1⟩
  obtain ⟨u, hu, huv⟩ := exists_of_map_isSome_eq (hnext.verdictAt_eq hosts ctx') hv'
  obtain ⟨v, hv⟩ : ∃ v, (a'.chooseAt s c).1.verdictAt ctx s = .ok v := by
    rcases hsure with rfl | hok
    · exact ⟨u, hu⟩
    · obtain ⟨-, ⟨⟨r, hr⟩, -⟩ | ⟨hr, -⟩⟩ := tryInPlace_of_failure_eq_none hok
      · exact ⟨some r, hr⟩
      · exact ⟨none, hr⟩
  cases v with
  | some r =>
    rw [tryInPlace_of_refused taken hv]
    refine ⟨rfl, ?_⟩
    rcases hcases' with ⟨-, hnil, -⟩ | ⟨hkept, -⟩
    · rw [hnil]
      exact .nil
    · -- refused by the first walk alone
      rcases others with rfl | hgone
      · obtain rfl := Except.ok.inj (hv.symm.trans hu)
        obtain rfl := Except.ok.inj (hv'.symm.trans hkept)
        contradiction
      · exact .of_forall_gone fun f _ => hgone f
  | none =>
    obtain rfl := looser _ _ u hv hu
    rcases hcases' with ⟨⟨r, hr⟩, -⟩ | ⟨-, heq'⟩
    · obtain rfl := Except.ok.inj (hv'.symm.trans hr)
      contradiction
    · rw [tryInPlace_of_kept taken hv] at hsure ⊢
      rw [heq'] at ok ⊢
      exact onward _ _ hnext ok hsure

/-- One value after the other, where the first walk tries those that are kept. -/
theorem Abreast.tryAll (h : Abreast keep gone (s :: rest) a b) (hs : ∀ t ∈ rest, s.Beside t)
    (hrest : rest.Pairwise Spot.Beside) (looser : Looser ctx ctx') (others : ctx = ctx' ∨ ∀ f, gone f)
    (onward : ∀ a b, Abreast keep gone rest a b →
      Follows (ctx = ctx') (AgreeOff fun _ => False) gone (walkSpots ctx rest a) (walkSpots ctx' rest b))
    (offered : (a.choicesAt? s).isSome) :
    Follows (ctx = ctx') (AgreeOff fun _ => False) gone
      (Walk.tryAll (a.listed s) (Draft.tryInPlace ctx s (walkSpots ctx rest)) a)
      (Walk.tryAll (b.listed s) (Draft.tryInPlace ctx' s (walkSpots ctx' rest)) b) := by
  have offered' : (b.choicesAt? s).isSome := by rwa [← h.offers s (List.mem_cons_self ..)]
  have onwardA (e : Draft) (he : e.Coherent) := underway_walkSpots ctx hrest he
  have onwardB (e : Draft) (he : e.Coherent) := underway_walkSpots ctx' hrest he
  have hlists := h.lists s (List.mem_cons_self ..)
  rw [hlists, Walk.tryAll_filter]
  refine .tryAll (P := Underway (s :: rest) rest a) (Q := Underway (s :: rest) rest b)
    (fun c e he hok => ?_) (fun c e he hok => he.tryInPlace hs offered' onwardB hok)
    (fun c hc a' b' ha hb => ?_) (.refl h.coherent _ _) (.refl h.coherent' _ _)
  · by_cases hkeep : keep s c = true
    · rw [if_pos hkeep] at hok ⊢
      exact he.tryInPlace hs offered onwardA hok
    · rw [if_neg hkeep]
      exact he
  · split
    · next hkeep =>
      refine h.tryInPlace hs looser others onward offered ha hb ?_
      rw [hlists]
      exact List.mem_filter.mpr ⟨hc, hkeep⟩
    · next hkeep =>
      -- what the second walk finds with a value that is not kept has it on record
      refine fun ok _ => ⟨rfl, .of_forall_gone fun f hf => ?_⟩
      obtain ⟨taken, -⟩ := tryInPlace_of_failure_eq_none ok
      obtain ⟨n, hn, -⟩ := assignment_chooseAt hb.coherent taken
      have hnot : s ∉ rest := fun hmem => (hs s hmem).host_ne rfl
      exact h.dropped s (List.mem_cons_self ..) n (nameAt?_congr hb.slots s ▸ hn) c
        (Bool.eq_false_iff.mpr hkeep) f (lookup_of_found_tryInPlace hb.coherent hnot hn ok hf)

/-- The spot can be opened again in a draft if it can in another one that names it alike. -/
theorem reopenAt_eq_none_of_nameAt?_eq (ha : a.Coherent) (hb : b.Coherent)
    (hname : a.nameAt? s = b.nameAt? s) (hn : (b.reopenAt s).2 = none) : (a.reopenAt s).2 = none := by
  cases s with
  | mark => rfl
  | slot i p =>
    obtain ⟨k, -, -, hk, -⟩ := reset_eq_none hb hn
    refine ha.reopenAt_eq_none ?_
    rw [hname, nameAt?, hk]
    rfl

/-- A walk that lists fewer values or refuses more goes along with the other one. -/
theorem walkSpots_follows (hosts : spots.Pairwise Spot.Beside) (looser : Looser ctx ctx')
    (others : ctx = ctx' ∨ ∀ f, gone f) (h : Abreast keep gone spots a b) :
    Follows (ctx = ctx') (AgreeOff fun _ => False) gone (walkSpots ctx spots a)
      (walkSpots ctx' spots b) := by
  induction spots generalizing a b with
  | nil =>
    exact fun _ _ => ⟨rfl, .both (h.agree.mono fun t ht => absurd ht.1 List.not_mem_nil) .nil⟩
  | cons s rest ih =>
    obtain ⟨hs, hrest⟩ := List.pairwise_cons.mp hosts
    have onward (a b : Draft) (hab : Abreast keep gone rest a b) := ih hrest hab
    have hoffers := h.offers s (List.mem_cons_self ..)
    cases passed : a.choicesAt? s with
    | none =>
      rw [passed] at hoffers
      have passed' : b.choicesAt? s = none :=
        Option.isNone_iff_eq_none.mp (Option.isSome_eq_false_iff.mp hoffers.symm)
      rw [walkSpots_of_passed passed, walkSpots_of_passed passed']
      exact onward a b (h.tail passed)
    | some choices =>
      have offered : (a.choicesAt? s).isSome := by rw [passed]; rfl
      have offered' : (b.choicesAt? s).isSome := by rwa [← hoffers]
      have hchoices := choicesAt?_of_isSome offered
      have hchoices' := choicesAt?_of_isSome offered'
      have onwardA (e : Draft) (he : e.Coherent) := underway_walkSpots ctx hrest he
      have onwardB (e : Draft) (he : e.Coherent) := underway_walkSpots ctx' hrest he
      intro ok hsure
      obtain ⟨_, rfl, htried', hre', hfound', -⟩ := walkSpots_of_offered hchoices' ok
      have hfollows := h.tryAll hs hrest looser others onward offered
      obtain ⟨htried, hthin⟩ := hfollows htried' (hsure.imp_right fun hok => by
        obtain ⟨_, rfl, htried, -⟩ := walkSpots_of_offered hchoices hok
        exact htried)
      have hdraft := (Underway.refl h.coherent (s :: rest) rest).tryAll hs offered onwardA htried
      have hdraft' := (Underway.refl h.coherent' (s :: rest) rest).tryAll hs offered' onwardB htried'
      have hre := reopenAt_eq_none_of_nameAt?_eq hdraft.coherent hdraft'.coherent
        (by rw [nameAt?_congr hdraft.slots, nameAt?_congr hdraft'.slots, h.agree.nameAt?_eq]) hre'
      obtain ⟨hok, hfound⟩ := walkSpots_of_tried hchoices rfl htried hre
      rw [hfound, hfound']
      exact ⟨hok, hthin⟩

/-- Walking through a property from two drafts that are told apart by what they list alone. -/
theorem walk_follows (keep : Spot → Choice → Bool) (gone : Draft → Prop) {p : Property}
    (looser : Looser ctx ctx') (others : ctx = ctx' ∨ ∀ f, gone f)
    (agree : AgreeOff (fun _ => False) a b) (ha : a.Sourced) (hb : b.Coherent)
    (lists : ∀ s, s.property = p → a.listed s = (b.listed s).filter (keep s))
    (dropped : ∀ s, s.property = p → ∀ n ∈ b.nameAt? s, ∀ c, keep s c = false → ∀ f : Draft,
      f.assignment.lookup n = some c → gone f) :
    Follows (ctx = ctx') (AgreeOff fun _ => False) gone (a.walk ctx p) (b.walk ctx' p) := by
  rw [walk_eq_walkSpots, walk_eq_walkSpots, ← spots_of_outline agree.outline]
  have habreast : Abreast keep gone (a.spots p) a b := {
    coherent := ha.coherent
    coherent' := hb
    takes := ha.takes
    agree := agree.mono fun _ ht => ht.elim
    offers := fun t _ => agree.offered_eq fun _ ht => ht.elim
    lists := fun t ht => lists t (property_of_mem_spots ht)
    dropped := fun t ht => dropped t (property_of_mem_spots ht) }
  exact walkSpots_follows (beside_spots a p) looser others habreast

end Walks

/-! ## Searches abreast -/

section Searches

variable {ctx ctx' : Context} {sure : Prop}

theorem Follows.imp_of_mem {R R' : Draft → Draft → Prop} {gone gone' : Draft → Prop} {v w : Walk}
    (h : Follows sure R gone v w)
    (hR : v.failure = none → w.failure = none → ∀ a ∈ v.found, ∀ b ∈ w.found, R a b → R' a b)
    (hgone : w.failure = none → ∀ b ∈ w.found, gone b → gone' b) : Follows sure R' gone' v w :=
  fun ok hsure =>
    have ⟨hok, hthin⟩ := h ok hsure
    ⟨hok, hthin.imp_of_mem (hR hok ok) (hgone ok)⟩

/-- Resolving a property goes along if the walks do, and what is gone stays so. -/
theorem resolve_follows {p : Property} {R R' : Draft → Draft → Prop} {gone gone' : Draft → Prop}
    (step : ∀ a b, R a b → Follows sure R' gone' (a.walk ctx p) (b.walk ctx' p))
    (stays : ∀ b, gone b → (b.walk ctx' p).failure = none → ∀ f ∈ (b.walk ctx' p).found, gone' f)
    {drafts drafts' found' : List Draft} (h : Thinned R gone drafts drafts')
    (ok : (resolve ctx' p drafts').outcome = .ok found')
    (hsure : sure ∨ ∃ found, (resolve ctx p drafts).outcome = .ok found) :
    ∃ found, (resolve ctx p drafts).outcome = .ok found ∧ Thinned R' gone' found found' := by
  obtain ⟨hall', rfl⟩ := resolve_eq_ok_iff.mp ok
  replace hsure : sure ∨ ∀ d ∈ drafts, (d.walk ctx p).failure = none :=
    hsure.imp_right fun ⟨_, hok⟩ => (resolve_eq_ok_iff.mp hok).1
  suffices hboth : (∀ d ∈ drafts, (d.walk ctx p).failure = none) ∧
      Thinned R' gone' (drafts.flatMap fun d => (d.walk ctx p).found)
        (drafts'.flatMap fun d => (d.walk ctx' p).found) from
    ⟨_, resolve_eq_ok_iff.mpr ⟨hboth.1, rfl⟩, hboth.2⟩
  clear ok
  induction h with
  | nil => exact ⟨fun _ hd => absurd hd List.not_mem_nil, .nil⟩
  | both hab _ ih =>
    obtain ⟨hfirst', hrest'⟩ := List.forall_mem_cons.mp hall'
    obtain ⟨hfirst, hthin⟩ := step _ _ hab hfirst' (hsure.imp_right fun h => h _ (List.mem_cons_self ..))
    obtain ⟨hrest, hthin'⟩ := ih hrest'
      (hsure.imp_right fun h d hd => h d (List.mem_cons_of_mem _ hd))
    rw [List.flatMap_cons, List.flatMap_cons]
    exact ⟨List.forall_mem_cons.mpr ⟨hfirst, hrest⟩, hthin.append hthin'⟩
  | gone hb _ ih =>
    obtain ⟨hfirst', hrest'⟩ := List.forall_mem_cons.mp hall'
    obtain ⟨hrest, hthin⟩ := ih hrest' hsure
    rw [List.flatMap_cons]
    exact ⟨hrest, (Thinned.of_forall_gone (stays _ hb hfirst')).append hthin⟩

/-- A search goes along if every walk does: what holds of the drafts of both, and of what is gone, may
depend on the properties that were resolved. -/
theorem resolveAll_follows (R : List Property → Draft → Draft → Prop) (gone : List Property → Draft → Prop)
    {steps : List Property}
    (step : ∀ seen p rest, seen ++ p :: rest = steps → ∀ a b, R seen a b →
      Follows sure (R (seen ++ [p])) (gone (seen ++ [p])) (a.walk ctx p) (b.walk ctx' p))
    (stays : ∀ seen p rest, seen ++ p :: rest = steps → ∀ b, gone seen b →
      (b.walk ctx' p).failure = none → ∀ f ∈ (b.walk ctx' p).found, gone (seen ++ [p]) f)
    {seen rest : List Property} (hsplit : seen ++ rest = steps) {drafts drafts' found' : List Draft}
    (h : Thinned (R seen) (gone seen) drafts drafts')
    (ok : (resolveAll ctx' rest drafts').outcome = .ok found')
    (hsure : sure ∨ ∃ found, (resolveAll ctx rest drafts).outcome = .ok found) :
    ∃ found, (resolveAll ctx rest drafts).outcome = .ok found ∧
      Thinned (R steps) (gone steps) found found' := by
  induction rest generalizing seen drafts drafts' with
  | nil =>
    obtain rfl := Except.ok.inj ok
    rw [List.append_nil] at hsplit
    subst hsplit
    exact ⟨drafts, rfl, h⟩
  | cons p rest ih =>
    obtain ⟨next', hnext', ok⟩ := resolveAll_cons_eq_ok_iff.mp ok
    obtain ⟨next, hnext, hthin⟩ := resolve_follows (step seen p rest hsplit) (stays seen p rest hsplit)
      h hnext' (hsure.imp_right fun ⟨_, hok⟩ =>
        have ⟨next, hnext, _⟩ := resolveAll_cons_eq_ok_iff.mp hok
        ⟨next, hnext⟩)
    have hsure : sure ∨ ∃ found, (resolveAll ctx rest next).outcome = .ok found := by
      refine hsure.imp_right fun ⟨found, hok⟩ => ?_
      obtain ⟨next₁, hnext₁, hok⟩ := resolveAll_cons_eq_ok_iff.mp hok
      obtain rfl := Except.ok.inj (hnext.symm.trans hnext₁)
      exact ⟨found, hok⟩
    have hsplit : (seen ++ [p]) ++ rest = steps := by rw [← hsplit]; simp
    obtain ⟨found, hfound, hall⟩ := ih hsplit hthin ok hsure
    exact ⟨found, resolveAll_cons_eq_ok_iff.mpr ⟨next, hnext, hfound⟩, hall⟩

end Searches

end Draft
end ChartAdvisor
