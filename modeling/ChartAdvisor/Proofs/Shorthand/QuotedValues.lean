import ChartAdvisor.Proofs.Outcome
import ChartAdvisor.Proofs.Shorthand.Cutting

/-!
# Which lists of parameters are found again

A list of parameters with JSON values is cut into its keys and the texts of its values, exactly when no
value is a text that has a quote in it. A value that starts with a quote ends at the next one, escaped or
not, whereas brackets and quotes inside a list or an object are passed over.
-/
namespace ChartAdvisor
namespace Shorthand

open Text

/-! ## Parameters in a row -/

/-- The keys of parameters and the texts of their values. -/
def valueTexts (parameters : List (List Char × Json)) : List (List Char × List Char) :=
  parameters.map fun p => (p.1, p.2.chars)

/-- Parameters as they are written, with commas between them. -/
def parameterList (parameters : List (List Char × List Char)) : List Char :=
  List.intercalate [','] (parameters.map fun p => p.1 ++ '=' :: p.2)

theorem parameterList_cons (p : List Char × List Char) (parameters : List (List Char × List Char)) :
    parameterList (p :: parameters) = p.1 ++ '=' :: (p.2 ++ parameterTail parameters) := by
  induction parameters generalizing p with
  | nil => simp [parameterList, parameterTail]
  | cons q parameters ih =>
    have hrest := ih q
    simp only [parameterList, List.map_cons] at hrest ⊢
    rw [List.intercalate_cons_cons, hrest, parameterTail_cons]
    simp

/-- What follows a parameter is nothing, or a comma and the other ones. -/
theorem parameterTail_eq (parameters : List (List Char × List Char)) :
    parameterTail parameters = if parameters = [] then [] else ',' :: parameterList parameters := by
  cases parameters with
  | nil => rfl
  | cons p parameters => rw [parameterTail_cons, if_neg (List.cons_ne_nil _ _), parameterList_cons]

/-- Parameters whose values end where their texts do are found again. -/
theorem splitParameters_parameterList {parameters : List (List Char × List Char)}
    (h : ∀ p ∈ parameters, IsParameter p.1 p.2) :
    splitParameters (parameterList parameters) = .ok parameters := by
  cases parameters with
  | nil => rw [parameterList, splitParameters]; rfl
  | cons p parameters =>
    rw [parameterList_cons]
    exact splitParameters_tail h

/-! ## What a list that was cut was made of -/

theorem value?_of_parameter? {key key' after value rest : List Char} (hkey : '=' ∉ key)
    {shorter : rest.length < (key ++ '=' :: after).length}
    (h : parameter? (key ++ '=' :: after) = .ok ((key', value), ⟨rest, shorter⟩)) :
    value? after = .ok (value, rest) := by
  have hkey' : ∀ c ∈ key, (c != '=') = true := fun c hc => by
    rw [bne_iff_ne]
    rintro rfl
    exact hkey hc
  have hdrop := dropWhile_append_stop hkey' (stopsAt_cons (p := (· != '=')) (c := '=') rfl after)
  unfold parameter? at h
  simp only at h
  split at h
  · contradiction
  · next found hcons =>
    obtain rfl : after = found := (List.cons.inj (hdrop.symm.trans hcons)).2
    split at h
    · contradiction
    · next v r hv =>
      obtain ⟨hp, hr⟩ := Prod.mk.inj (Except.ok.inj h)
      obtain rfl : v = value := (Prod.mk.inj hp).2
      obtain rfl : r = rest := congrArg Subtype.val hr
      exact hv

/-- The first parameter of a list that was cut stands at its start, and the other ones behind a comma. -/
theorem parameter?_of_splitParameters {text : List Char} {p : List Char × List Char}
    {parameters : List (List Char × List Char)} (h : splitParameters text = .ok (p :: parameters)) :
    ∃ rest shorter, parameter? text = .ok (p, ⟨rest, shorter⟩) ∧
      ∀ c more, rest = c :: more → splitParameters more = .ok parameters := by
  rw [splitParameters] at h
  split at h
  · exact absurd (Except.ok.inj h).symm (List.cons_ne_nil p parameters)
  · split at h
    · contradiction
    · next q shorter hq =>
      obtain rfl : q = p := (List.cons.inj (Except.ok.inj h)).1
      exact ⟨[], shorter, hq, fun c more hcons => absurd hcons.symm (List.cons_ne_nil c more)⟩
    · next q c more shorter hq =>
      split at h
      · obtain ⟨ps, hps, heq⟩ := map_eq_ok.mp h
        obtain ⟨rfl, rfl⟩ := List.cons.inj heq
        refine ⟨c :: more, shorter, hq, fun d other hd => ?_⟩
        obtain ⟨-, rfl⟩ := List.cons.inj hd
        exact hps
      · contradiction

/-! ## Texts with a quote in them -/

/-- A text that has a quote in it is cut at the quote. -/
theorem value?_quote_ne {s : String} (h : '"' ∈ s.toList) {rest value rest' : List Char}
    (hv : value? (Json.quote s ++ rest) = .ok (value, rest')) : value ≠ Json.quote s := by
  have hmem : '"' ∈ s.toList.flatMap Json.escapeChar :=
    List.mem_flatMap.mpr ⟨'"', h, by decide⟩
  obtain ⟨before, behind, hbody, hfirst⟩ := List.eq_append_cons_of_mem hmem
  have hquote : Json.quote s = '"' :: (before ++ '"' :: (behind ++ ['"'])) := by
    rw [Json.quote, hbody]
    simp
  have hcut := value?_quoted hfirst (behind ++ ['"'] ++ rest)
  rw [hquote, List.cons_append, List.append_assoc, List.cons_append, hcut] at hv
  rw [← (Prod.mk.inj (Except.ok.inj hv)).1, hquote]
  intro heq
  simpa using congrArg List.length heq

/-- The values of a list that was cut into what it was made of have no quote in them, unless in brackets. -/
theorem quote_notMem_of_splitParameters {parameters : List (List Char × Json)}
    (hkeys : ∀ p ∈ parameters, '=' ∉ p.1)
    (h : splitParameters (parameterList (valueTexts parameters)) = .ok (valueTexts parameters)) :
    ∀ p ∈ parameters, ∀ s, p.2 = .text s → '"' ∉ s.toList := by
  induction parameters with
  | nil => nofun
  | cons p parameters ih =>
    obtain ⟨hkey, hkeys⟩ := List.forall_mem_cons.mp hkeys
    have htexts : valueTexts (p :: parameters) = (p.1, p.2.chars) :: valueTexts parameters := rfl
    rw [htexts, parameterList_cons] at h
    obtain ⟨rest, shorter, hp, hrest⟩ := parameter?_of_splitParameters h
    have hvalue := value?_of_parameter? hkey hp
    have hquote : ∀ s, p.2 = .text s → '"' ∉ s.toList := by
      intro s hs hmem
      rw [hs] at hvalue
      exact value?_quote_ne hmem hvalue rfl
    have hstop := stopsAt_parameterTail (valueTexts parameters)
    obtain rfl : parameterTail (valueTexts parameters) = rest :=
      (Prod.mk.inj (Except.ok.inj ((value?_chars hquote hstop).symm.trans hvalue))).2
    refine List.forall_mem_cons.mpr ⟨hquote, ?_⟩
    by_cases hnil : valueTexts parameters = []
    · obtain rfl : parameters = [] := List.map_eq_nil_iff.mp hnil
      nofun
    · exact ih hkeys (hrest ',' _ (by rw [parameterTail_eq, if_neg hnil]))

/-- A list of parameters with JSON values is cut into its keys and the texts of its values, exactly when
no value is a text that has a quote in it. -/
theorem splitParameters_valueTexts_iff {parameters : List (List Char × Json)}
    (hkeys : ∀ p ∈ parameters, '=' ∉ p.1) :
    splitParameters (parameterList (valueTexts parameters)) = .ok (valueTexts parameters) ↔
      ∀ p ∈ parameters, ∀ s, p.2 = .text s → '"' ∉ s.toList := by
  refine ⟨quote_notMem_of_splitParameters hkeys, fun hquotes => splitParameters_parameterList ?_⟩
  intro t ht
  obtain ⟨p, hp, rfl⟩ := List.mem_map.mp ht
  exact ⟨hkeys p hp, fun rest hrest => value?_chars (hquotes p hp) hrest⟩

/-- A list with a quote and a bracket in it, a text and a number. -/
def bracketedQuotes : List (List Char × Json) :=
  [(['a'], .list [.text "\"]", .text ","]), (['b', '"'], .text "]=,"), (['c'], .number (.ofCount 7))]

/-- Quotes inside of brackets do no harm, nor do commas and equals signs between quotes. -/
theorem splitParameters_bracketedQuotes :
    (∀ p ∈ bracketedQuotes, '=' ∉ p.1) ∧
      splitParameters (parameterList (valueTexts bracketedQuotes)) = .ok (valueTexts bracketedQuotes) := by
  have hkeys : ∀ p ∈ bracketedQuotes, '=' ∉ p.1 := by decide
  refine ⟨hkeys, (splitParameters_valueTexts_iff hkeys).mpr ?_⟩
  simp only [bracketedQuotes, List.forall_mem_cons, List.not_mem_nil, false_imp_iff, implies_true,
    and_true, reduceCtorEq, true_and, Json.text.injEq, forall_eq']
  decide

/-- A text with a quote in it is cut inside, and what is left is no parameter. -/
theorem splitParameters_quote :
    splitParameters (parameterList (valueTexts [(['e', 'x', 't', 'e', 'n', 't'], .text "a\"b")])) =
      .error (.noComma "b\"") := by
  rw [splitParameters]
  rfl

end Shorthand
end ChartAdvisor
