import ChartAdvisor.Proofs.Rules.Verdict

/-!
# Walking in place and searching on copies

A walk changes one draft in place, overwrites a rejected value with the next one and opens a slot
again behind itself. It finds what a search finds that starts from a fresh copy for every
value, in the same order, and leaves the draft as it was. Both are taken up to parts of a scale
at `null`, and exactly where no part is at `null`.
-/
namespace ChartAdvisor

namespace Walk

variable {α : Type}

@[simp]
theorem start_andThen (d : Draft) (next : Draft → Walk) : (start d).andThen next = next d := by
  simp [start, andThen]

theorem andThen_assoc (w : Walk) (f g : Draft → Walk) :
    (w.andThen f).andThen g = w.andThen fun d => (f d).andThen g := by
  unfold andThen
  cases hw : w.failure with
  | some e => simp [hw]
  | none =>
    simp only
    cases hf : (f w.draft).failure with
    | some e => simp [hf]
    | none => simp [List.append_assoc]

/-- What two walks leave that were made one after the other. -/
theorem andThen_of_failure_eq_none {w : Walk} {next : Draft → Walk}
    (h : (w.andThen next).failure = none) :
    w.failure = none ∧ (next w.draft).failure = none ∧
      (w.andThen next).found = w.found ++ (next w.draft).found ∧
      (w.andThen next).draft = (next w.draft).draft := by
  cases hw : w.failure with
  | some e =>
    unfold andThen at h
    simp [hw] at h
  | none =>
    unfold andThen at h ⊢
    simp only [hw] at h ⊢
    exact ⟨trivial, h, trivial, trivial⟩

theorem failure_andThen {w : Walk} {next : Draft → Walk} (h : w.failure = none) :
    (w.andThen next).failure = (next w.draft).failure := by
  rw [andThen, h]

@[simp]
theorem tryAll_nil (attempt : α → Draft → Walk) (d : Draft) : tryAll [] attempt d = start d := rfl

theorem foldl_andThen (values : List α) (attempt : α → Draft → Walk) (w : Walk) :
    values.foldl (fun w v => w.andThen (attempt v)) w = w.andThen (tryAll values attempt) := by
  induction values generalizing w with
  | nil =>
    simp only [List.foldl_nil]
    unfold andThen tryAll
    cases hw : w.failure <;> simp [start, ← hw]
  | cons v rest ih =>
    rw [List.foldl_cons, ih, andThen_assoc]
    congr 1
    funext d
    unfold tryAll
    rw [List.foldl_cons, ih, start_andThen]
    rfl

/-- The first value is tried, and the others where it leaves off. -/
theorem tryAll_cons (v : α) (rest : List α) (attempt : α → Draft → Walk) (d : Draft) :
    tryAll (v :: rest) attempt d = (attempt v d).andThen (tryAll rest attempt) := by
  unfold tryAll
  rw [List.foldl_cons, foldl_andThen, start_andThen]
  rfl

/-- Leaving values out is to start again in their place. -/
theorem tryAll_filter (keep : α → Bool) (values : List α) (attempt : α → Draft → Walk) (d : Draft) :
    tryAll (values.filter keep) attempt d =
      tryAll values (fun v d => if keep v then attempt v d else start d) d := by
  induction values generalizing d with
  | nil => rfl
  | cons v rest ih =>
    rw [tryAll_cons, List.filter_cons]
    split
    · rw [tryAll_cons]
      exact congrArg _ (funext ih)
    · rw [start_andThen, ih]

end Walk

namespace Draft

/-- The values that are tried at a spot; none where the search passes it by. -/
def choicesAt? (d : Draft) : Spot → Option (List Choice)
  | .mark => d.slots.mark.map fun c => c.values.map toChoice
  | .slot index p => d.valuesAt? index p

/-- The values that are listed for a spot. -/
def listed (d : Draft) : Spot → List Choice
  | .mark => (d.slots.mark.map fun k => k.values.map toChoice).getD []
  | .slot i p => ((d.slots.slot? i p).map Candidates.values).getD []

theorem listed_congr {d d' : Draft} (h : d.slots = d'.slots) (s : Spot) : d.listed s = d'.listed s := by
  cases s <;> simp only [listed, h]

/-- What is listed for a slot is tried while it is open in an encoding that plays a part. -/
theorem choicesAt?_slot_eq_some_iff {d : Draft} {i : Nat} {p : Property} {choices : List Choice} :
    d.choicesAt? (.slot i p) = some choices ↔
      (∃ e, d.encoding? i = some e ∧ e.isFrozen = false ∧ e.standing p = .undecided) ∧
        d.listed (.slot i p) = choices := by
  simp only [choicesAt?, valuesAt?, listed, ← Encoding.isOpen_iff]
  cases d.encoding? i with
  | none => simp
  | some e =>
    simp only [Option.some.injEq, exists_eq_left', Encoding.isFrozen]
    cases e.isValue <;> cases e.isDisabledAutoCount <;> cases e.isOpen p <;> simp

theorem choicesAt?_slot_isSome_iff {d : Draft} {i : Nat} {p : Property} :
    (d.choicesAt? (.slot i p)).isSome ↔
      ∃ e, d.encoding? i = some e ∧ e.isFrozen = false ∧ e.standing p = .undecided := by
  rw [Option.isSome_iff_exists]
  simp only [choicesAt?_slot_eq_some_iff, exists_and_left, exists_eq', and_true]

theorem choicesAt?_slot_eq_none_iff {d : Draft} {i : Nat} {p : Property} :
    d.choicesAt? (.slot i p) = none ↔
      ∀ e, d.encoding? i = some e → e.isFrozen = false → e.standing p ≠ .undecided := by
  rw [← Option.not_isSome_iff_eq_none, choicesAt?_slot_isSome_iff]
  simp only [not_exists, not_and, ne_eq]

/-- Where values are tried, they are those that are listed. -/
theorem choicesAt?_of_isSome {d : Draft} {s : Spot} (h : (d.choicesAt? s).isSome) :
    d.choicesAt? s = some (d.listed s) := by
  cases s with
  | mark =>
    cases hm : d.slots.mark with
    | none => simp [choicesAt?, hm] at h
    | some k => simp [choicesAt?, listed, hm]
  | slot i p => exact choicesAt?_slot_eq_some_iff.mpr ⟨choicesAt?_slot_isSome_iff.mp h, rfl⟩

theorem eq_listed_of_choicesAt? {d : Draft} {s : Spot} {choices : List Choice}
    (h : d.choicesAt? s = some choices) : choices = d.listed s :=
  Option.some.inj (h.symm.trans (choicesAt?_of_isSome (Option.isSome_of_mem h)))

/-- The spots of a property in the order in which they are visited. -/
def spots (d : Draft) (p : Property) : List Spot :=
  if p = .mark then [.mark] else (d.slots.indices p).map (.slot · p)

/-- The spots of a property depend on the open slots alone. -/
theorem spots_congr {d d' : Draft} (h : d.slots = d'.slots) (p : Property) :
    d.spots p = d'.spots p := by
  unfold spots
  rw [h]

/-- What lies at the spots of a property. -/
theorem mem_spots_iff {d : Draft} {p : Property} {s : Spot} :
    s ∈ d.spots p ↔ if p = .mark then s = .mark else ∃ i ∈ d.slots.indices p, s = .slot i p := by
  unfold spots
  split
  · exact List.mem_singleton
  · simp [eq_comm]

/-- The encoding in which a spot lies. -/
def hostOf : Spot → Option Nat
  | .mark => none
  | .slot i _ => some i

/-- The spots of a property lie in different encodings. -/
theorem hosts_spots (d : Draft) (p : Property) :
    (d.spots p).Pairwise fun s t => hostOf s ≠ hostOf t := by
  unfold spots
  split
  · exact List.pairwise_singleton _ _
  · rw [List.pairwise_map]
    have hlt := (List.pairwise_lt_range (n := d.slots.encodings.length)).filter
      fun i => (d.slots.slot? i p).isSome
    exact hlt.imp fun hij e => Nat.ne_of_lt hij (Option.some.inj e)

theorem hosts_ne {d : Draft} {p : Property} {s t : Spot} (hs : s ∈ d.spots p) (ht : t ∈ d.spots p)
    (hst : s ≠ t) : hostOf s ≠ hostOf t := by
  unfold spots at hs ht
  split at hs
  · next hp =>
    rw [if_pos hp] at ht
    exact absurd ((List.mem_singleton.mp hs).trans (List.mem_singleton.mp ht).symm) hst
  · next hp =>
    rw [if_neg hp] at ht
    obtain ⟨i, -, rfl⟩ := List.mem_map.mp hs
    obtain ⟨j, -, rfl⟩ := List.mem_map.mp ht
    exact fun e => hst (by rw [Option.some.inj e])

/-- Chooses a value in place, and goes on with the draft if the rules say nothing against it. -/
def tryInPlace (ctx : Context) (s : Spot) (next : Draft → Walk) (c : Choice) (d : Draft) : Walk :=
  Walk.change (d.chooseAt s c) fun d => Walk.judge d (d.verdictAt ctx s) next

/-- A walk through spots. -/
def walkSpots (ctx : Context) : List Spot → Draft → Walk
  | [], d => .keep d
  | s :: rest, d =>
    match d.choicesAt? s with
    | none => walkSpots ctx rest d
    | some choices =>
      (Walk.tryAll choices (tryInPlace ctx s (walkSpots ctx rest)) d).andThen fun d =>
        Walk.change (d.reopenAt s) Walk.start

/-- Tries values one after the other and gathers what is found. -/
def tryEach (attempt : Choice → Except Error (List Draft)) :
    List Choice → Except Error (List Draft)
  | [] => .ok []
  | c :: rest => do return (← attempt c) ++ (← tryEach attempt rest)

/-- Chooses a value on a copy, and goes on with the copy if the rules say nothing against it. -/
def tryOnCopy (ctx : Context) (s : Spot) (next : Draft → Except Error (List Draft)) (d : Draft)
    (c : Choice) : Except Error (List Draft) :=
  match d.chooseAt s c with
  | (_, some e) => .error (.draft e)
  | (copy, none) =>
    match copy.verdictAt ctx s with
    | .error e => .error (.rule e)
    | .ok (some _) => .ok []
    | .ok none => next copy

/-- The search that takes a fresh copy for every value; a copy is found when no spot is left. -/
def copySearch (ctx : Context) : List Spot → Draft → Except Error (List Draft)
  | [], d => .ok [d]
  | s :: rest, d =>
    match d.choicesAt? s with
    | none => copySearch ctx rest d
    | some choices => tryEach (tryOnCopy ctx s (copySearch ctx rest) d) choices

/-- Going through the spots of a property is the walk of the library. -/
theorem walk_eq_walkSpots (ctx : Context) (p : Property) (d : Draft) :
    d.walk ctx p = walkSpots ctx (d.spots p) d := by
  unfold walk spots
  split
  · next hp =>
    unfold walkMark walkSpots choicesAt?
    cases hs : d.slots.mark with
    | none => rfl
    | some c =>
      simp only [Option.map_some]
      unfold Walk.tryAll
      rw [List.foldl_map]
      rfl
  · next hp =>
    generalize d.slots.indices p = indices
    induction indices generalizing d with
    | nil => rfl
    | cons i rest ih =>
      rw [List.map_cons, walkEncodings, walkSpots]
      simp only [choicesAt?]
      cases d.valuesAt? i p with
      | none => exact ih d
      | some values =>
        simp only
        have hrest : walkEncodings ctx p rest = walkSpots ctx (rest.map (.slot · p)) := funext ih
        rw [hrest]
        rfl

/-! ## Walks that end well -/

theorem change_of_failure_eq_none {a : Attempt Draft} {next : Draft → Walk}
    (h : (Walk.change a next).failure = none) : a.2 = none ∧ Walk.change a next = next a.1 := by
  rcases a with ⟨d, _ | e⟩
  · exact ⟨rfl, rfl⟩
  · contradiction

theorem change_of_eq_none {a : Attempt Draft} {next : Draft → Walk} (h : a.2 = none) :
    Walk.change a next = next a.1 := by
  rcases a with ⟨d, error⟩
  obtain rfl : error = none := h
  rfl

/-- A value that is tried without failure was taken, and was refused or led on. -/
theorem tryInPlace_of_failure_eq_none {ctx : Context} {s : Spot} {next : Draft → Walk} {c : Choice}
    {d : Draft} (h : (tryInPlace ctx s next c d).failure = none) : (d.chooseAt s c).2 = none ∧
      (((∃ r, (d.chooseAt s c).1.verdictAt ctx s = .ok (some r)) ∧
          (tryInPlace ctx s next c d).found = [] ∧
          (tryInPlace ctx s next c d).draft = (d.chooseAt s c).1) ∨
        (d.chooseAt s c).1.verdictAt ctx s = .ok none ∧
          tryInPlace ctx s next c d = next (d.chooseAt s c).1) := by
  unfold tryInPlace at h ⊢
  obtain ⟨taken, heq⟩ := change_of_failure_eq_none h
  rw [heq] at h ⊢
  refine ⟨taken, ?_⟩
  unfold Walk.judge at h ⊢
  cases hv : (d.chooseAt s c).1.verdictAt ctx s with
  | error e => rw [hv] at h; contradiction
  | ok v =>
    cases v with
    | some r => exact .inl ⟨⟨r, rfl⟩, rfl, rfl⟩
    | none => exact .inr ⟨rfl, rfl⟩

theorem tryInPlace_of_refused {ctx : Context} {s : Spot} {next : Draft → Walk} {c : Choice} {d : Draft}
    {r : Refusal} (taken : (d.chooseAt s c).2 = none)
    (hv : (d.chooseAt s c).1.verdictAt ctx s = .ok (some r)) :
    tryInPlace ctx s next c d = { draft := (d.chooseAt s c).1, refusals := [r] } := by
  unfold tryInPlace
  rw [change_of_eq_none taken, hv]
  rfl

theorem tryInPlace_of_kept {ctx : Context} {s : Spot} {next : Draft → Walk} {c : Choice} {d : Draft}
    (taken : (d.chooseAt s c).2 = none) (hv : (d.chooseAt s c).1.verdictAt ctx s = .ok none) :
    tryInPlace ctx s next c d = next (d.chooseAt s c).1 := by
  unfold tryInPlace
  rw [change_of_eq_none taken, hv]
  rfl

theorem tryOnCopy_of_refused {ctx : Context} {s : Spot} {next : Draft → Except Error (List Draft)}
    {c : Choice} {d : Draft} {r : Refusal} (taken : (d.chooseAt s c).2 = none)
    (hv : (d.chooseAt s c).1.verdictAt ctx s = .ok (some r)) : tryOnCopy ctx s next d c = .ok [] := by
  unfold tryOnCopy
  rcases hc : d.chooseAt s c with ⟨copy, error⟩
  rw [hc] at taken hv
  obtain rfl : error = none := taken
  simp only [hv]

theorem tryOnCopy_of_kept {ctx : Context} {s : Spot} {next : Draft → Except Error (List Draft)}
    {c : Choice} {d : Draft} (taken : (d.chooseAt s c).2 = none)
    (hv : (d.chooseAt s c).1.verdictAt ctx s = .ok none) :
    tryOnCopy ctx s next d c = next (d.chooseAt s c).1 := by
  unfold tryOnCopy
  rcases hc : d.chooseAt s c with ⟨copy, error⟩
  rw [hc] at taken hv
  obtain rfl : error = none := taken
  simp only [hv]

/-- What is found with a value on a copy comes of the value, which was taken and not refused. -/
theorem of_mem_tryOnCopy {ctx : Context} {s : Spot} {next : Draft → Except Error (List Draft)}
    {c : Choice} {d d' : Draft} {found : List Draft} (h : tryOnCopy ctx s next d c = .ok found)
    (hd' : d' ∈ found) : (d.chooseAt s c).2 = none ∧ (d.chooseAt s c).1.verdictAt ctx s = .ok none ∧
      next (d.chooseAt s c).1 = .ok found := by
  unfold tryOnCopy at h
  split at h
  · contradiction
  · next copy hcopy =>
    rw [hcopy]
    split at h
    · contradiction
    · obtain rfl := Except.ok.inj h
      contradiction
    · next hv => exact ⟨rfl, hv, h⟩

/-- Where nothing can be tried, a walk goes on to the next spot. -/
theorem walkSpots_of_passed {ctx : Context} {s : Spot} {rest : List Spot} {d : Draft}
    (passed : d.choicesAt? s = none) : walkSpots ctx (s :: rest) d = walkSpots ctx rest d := by
  rw [walkSpots, passed]

/-- Where values are tried, a walk finds what comes of them and opens the spot again. -/
theorem walkSpots_of_offered {ctx : Context} {s : Spot} {rest : List Spot} {d : Draft}
    {choices : List Choice} (offered : d.choicesAt? s = some choices)
    (h : (walkSpots ctx (s :: rest) d).failure = none) :
    ∃ tried, tried = Walk.tryAll choices (tryInPlace ctx s (walkSpots ctx rest)) d ∧
      tried.failure = none ∧ (tried.draft.reopenAt s).2 = none ∧
      (walkSpots ctx (s :: rest) d).found = tried.found ∧
      (walkSpots ctx (s :: rest) d).draft = (tried.draft.reopenAt s).1 := by
  rw [walkSpots, offered] at h ⊢
  obtain ⟨htried, hreopen, hfound, hdraft⟩ := Walk.andThen_of_failure_eq_none h
  obtain ⟨hre, heq⟩ := change_of_failure_eq_none hreopen
  rw [heq] at hfound hdraft
  exact ⟨_, rfl, htried, hre, hfound.trans (List.append_nil _), hdraft⟩

/-- Where all values can be tried and the spot can be opened again, a walk ends well. -/
theorem walkSpots_of_tried {ctx : Context} {s : Spot} {rest : List Spot} {d : Draft}
    {choices : List Choice} {tried : Walk} (offered : d.choicesAt? s = some choices)
    (htried : tried = Walk.tryAll choices (tryInPlace ctx s (walkSpots ctx rest)) d)
    (ok : tried.failure = none) (hn : (tried.draft.reopenAt s).2 = none) :
    (walkSpots ctx (s :: rest) d).failure = none ∧
      (walkSpots ctx (s :: rest) d).found = tried.found := by
  have hreopen : (walkSpots ctx (s :: rest) d).failure = none := by
    rw [walkSpots, offered]
    simp only
    rw [← htried, Walk.failure_andThen ok, change_of_eq_none hn]
    rfl
  obtain ⟨-, rfl, -, -, hfound, -⟩ := walkSpots_of_offered offered hreopen
  exact ⟨hreopen, htried ▸ hfound⟩

/-! ## The two searches side by side -/

/-- What is tried at a slot depends on the slot and on whether its encoding plays a part. -/
theorem valuesAt?_congr {d d' : Draft} {i : Nat} {p : Property} (hs : d.slots = d'.slots)
    (he : Option.Rel (Encoding.Agree [.autoCount, p]) (d.encoding? i) (d'.encoding? i)) :
    d.valuesAt? i p = d'.valuesAt? i p := by
  unfold valuesAt?
  rw [hs]
  generalize d.encoding? i = a, d'.encoding? i = b at he
  cases he with
  | none => rfl
  | some h =>
    simp only [Encoding.isValue_eq, h.kind, h.isDisabledAutoCount (by simp), h.isOpen (p := p) (by simp)]

/-- Encodings that differ at most in nulls agree on every property. -/
theorem agree_of_withoutNulls {a b : Option Encoding}
    (h : a.map Encoding.withoutNulls = b.map Encoding.withoutNulls) (ps : List Property) :
    Option.Rel (Encoding.Agree ps) a b := by
  cases a <;> cases b <;>
    simp only [Option.map_none, Option.map_some, reduceCtorEq, Option.some.injEq] at h
  · exact .none
  · exact .some ⟨Encoding.kind_congr h, fun p _ => Encoding.standing_congr h p⟩

theorem Alike.encoding_rel {d d' : Draft} (h : d.Alike d') (i : Nat) (ps : List Property) :
    Option.Rel (Encoding.Agree ps) (d.encoding? i) (d'.encoding? i) :=
  agree_of_withoutNulls (h.encodings i) ps

theorem Alike.choicesAt?_eq {d d' : Draft} (h : d.Alike d') (s : Spot) :
    d.choicesAt? s = d'.choicesAt? s := by
  cases s with
  | mark => simp only [choicesAt?, h.slots]
  | slot i p => exact valuesAt?_congr h.slots (h.encoding_rel i _)

/-- What is tried at a spot does not depend on choices in other encodings. -/
theorem AlikeApart.choicesAt?_eq {d d' : Draft} {s t : Spot} (h : d.AlikeApart s d')
    (hst : hostOf s ≠ hostOf t) : d.choicesAt? t = d'.choicesAt? t := by
  cases t with
  | mark => simp only [choicesAt?, h.slots]
  | slot j q =>
    have hj := h.encoding_of_ne (j := j) fun p e => hst (by rw [e]; rfl)
    exact valuesAt?_congr h.slots (agree_of_withoutNulls hj _)

/-- A spot is ready to be tried: it is passed by, or it has a name and is in place. -/
def Ready (d : Draft) (s : Spot) : Prop :=
  d.choicesAt? s = none ∨ (d.nameAt? s).isSome ∧ d.InPlace s

theorem Ready.chooseAt {d : Draft} (h : d.Coherent) {s t : Spot} (ht : d.Ready t) {c : Choice}
    (hn : (d.chooseAt s c).2 = none) (hst : hostOf s ≠ hostOf t) : (d.chooseAt s c).1.Ready t := by
  have hap := alikeApart_chooseAt h hn
  rcases ht with ht | ⟨hname, hplace⟩
  · exact .inl (by rw [← hap.choicesAt?_eq hst, ht])
  · refine .inr ⟨by rwa [← hap.nameAt?_eq], hplace.chooseAt h hn (fun e => hst (e ▸ rfl)) ?_⟩
    rintro i p q rfl rfl
    exact absurd rfl hst

/-- What is on record under a name is the same in two drafts, or it was forgotten in the first
one at a spot that is still to be tried. -/
def Remembered (pending : List Spot) (d copy : Draft) (n : String) : Prop :=
  d.assignment.lookup n = copy.assignment.lookup n ∨
    d.assignment.lookup n = none ∧ ∃ s ∈ pending, (copy.choicesAt? s).isSome ∧ n ∈ copy.nameAt? s

/-- A draft that a walk changes in place, beside a copy that it is alike. -/
structure Twin (pending : List Spot) (d copy : Draft) : Prop where
  coherent : d.Coherent
  copy_coherent : copy.Coherent
  alike : d.Alike copy
  remembered : ∀ n, Remembered pending d copy n

/-- A draft in which a walk tries values at a spot, beside the copy from before. -/
structure Sibling (s : Spot) (pending : List Spot) (d copy : Draft) : Prop where
  coherent : d.Coherent
  copy_coherent : copy.Coherent
  alikeApart : d.AlikeApart s copy
  remembered : ∀ n, n ∉ copy.nameAt? s → Remembered pending d copy n

/-- Once the walk is over, nothing is left that only the copy remembers. -/
theorem Twin.lookup_eq {d copy : Draft} (h : Twin [] d copy) (n : String) :
    d.assignment.lookup n = copy.assignment.lookup n := by
  rcases h.remembered n with heq | ⟨-, s, hs, -⟩
  · exact heq
  · contradiction

theorem Twin.refl {d : Draft} (h : d.Coherent) (pending : List Spot) : Twin pending d d :=
  ⟨h, h, .refl d, fun _ => .inl rfl⟩

theorem Twin.symm {d copy : Draft} (h : Twin [] d copy) : Twin [] copy d :=
  ⟨h.copy_coherent, h.coherent, h.alike.symm, fun n => .inl (h.lookup_eq n).symm⟩

theorem Twin.trans {d d' d'' : Draft} (h : Twin [] d d') (h' : Twin [] d' d'') : Twin [] d d'' :=
  ⟨h.coherent, h'.copy_coherent, h.alike.trans h'.alike,
    fun n => .inl ((h.lookup_eq n).trans (h'.lookup_eq n))⟩

/-- A spot that is passed by is not forgotten. -/
theorem Remembered.tail {s : Spot} {pending : List Spot} {d copy : Draft} {n : String}
    (h : Remembered (s :: pending) d copy n) (hs : copy.choicesAt? s = none ∨ n ∉ copy.nameAt? s) :
    Remembered pending d copy n := by
  refine h.imp_right fun ⟨hn, t, ht, hc, hnt⟩ => ⟨hn, t, ?_, hc, hnt⟩
  rcases List.mem_cons.mp ht with rfl | ht
  · rcases hs with hs | hs
    · rw [hs] at hc; contradiction
    · exact absurd hnt hs
  · exact ht

theorem Twin.sibling {s : Spot} {pending : List Spot} {d copy : Draft}
    (h : Twin (s :: pending) d copy) : Sibling s pending d copy :=
  ⟨h.coherent, h.copy_coherent, h.alike.apart s, fun n hn => (h.remembered n).tail (.inr hn)⟩

/-- A choice at a spot makes the draft and its copy alike, whatever was chosen there before. -/
theorem Sibling.chooseAt {s : Spot} {pending : List Spot} {d copy : Draft}
    (h : Sibling s pending d copy) (hosts : ∀ t ∈ pending, hostOf s ≠ hostOf t) {c : Choice}
    (hn : (d.chooseAt s c).2 = none) :
    (copy.chooseAt s c).2 = none ∧ Twin pending (d.chooseAt s c).1 (copy.chooseAt s c).1 := by
  obtain ⟨hcn, halike⟩ := alike_chooseAt h.coherent h.alikeApart hn
  refine ⟨hcn, h.coherent.chooseAt s c, h.copy_coherent.chooseAt s c, halike, fun n => ?_⟩
  have hap := alikeApart_chooseAt h.copy_coherent hcn
  have hname : d.nameAt? s = copy.nameAt? s := h.alikeApart.nameAt?_eq s
  unfold Remembered
  by_cases hns : n ∈ copy.nameAt? s
  · rw [lookup_chooseAt_self h.coherent hn (hname ▸ hns), lookup_chooseAt_self h.copy_coherent hcn hns]
    exact .inl rfl
  · rw [lookup_chooseAt h.coherent hn (hname ▸ hns), lookup_chooseAt h.copy_coherent hcn hns]
    refine (h.remembered n hns).imp_right fun ⟨hnone, t, ht, hc, hnt⟩ => ⟨hnone, t, ht, ?_, ?_⟩
    · rwa [← hap.choicesAt?_eq (hosts t ht)]
    · rwa [← hap.nameAt?_eq]

/-- The copy from before a choice is a sibling of all that comes of the choice. -/
theorem Twin.sibling_of_chooseAt {s : Spot} {pending : List Spot} {d copy : Draft} {c : Choice}
    (h : Twin pending d (copy.chooseAt s c).1) (hosts : ∀ t ∈ pending, hostOf s ≠ hostOf t)
    (hc : copy.Coherent) (hn : (copy.chooseAt s c).2 = none) : Sibling s pending d copy := by
  have hap := alikeApart_chooseAt hc hn
  refine ⟨h.coherent, hc, (h.alike.apart s).trans hap.symm, fun n hns => ?_⟩
  have hr := h.remembered n
  unfold Remembered at hr ⊢
  rw [lookup_chooseAt hc hn hns] at hr
  refine hr.imp_right fun ⟨hnone, t, ht, hct, hnt⟩ => ⟨hnone, t, ht, ?_, ?_⟩
  · rwa [hap.choicesAt?_eq (hosts t ht)]
  · rwa [hap.nameAt?_eq]

/-- Taking back what was tried at a spot that was in place makes the draft alike the copy from
before, but what was on record for the spot is forgotten. -/
theorem Sibling.reopenAt {s : Spot} {pending : List Spot} {d copy : Draft}
    (h : Sibling s pending d copy) (hname : (copy.nameAt? s).isSome) (hplace : copy.InPlace s)
    (hs : (copy.choicesAt? s).isSome) (hn : (d.reopenAt s).2 = none) :
    Twin (s :: pending) (d.reopenAt s).1 copy := by
  have hname' : (d.nameAt? s).isSome := by rwa [h.alikeApart.nameAt?_eq]
  obtain ⟨hcn, halike⟩ := alike_reopenAt h.coherent h.alikeApart hname' hn
  refine ⟨h.coherent.reopenAt s, h.copy_coherent,
    halike.trans (hplace.alike_reopenAt h.copy_coherent hname hcn), fun n => ?_⟩
  have hnames : d.nameAt? s = copy.nameAt? s := h.alikeApart.nameAt?_eq s
  unfold Remembered
  by_cases hns : n ∈ copy.nameAt? s
  · exact .inr ⟨lookup_reopenAt_self h.coherent hn (hnames ▸ hns), s, List.mem_cons_self .., hs, hns⟩
  · rw [lookup_reopenAt h.coherent hn (hnames ▸ hns)]
    refine (h.remembered n hns).imp_right ?_
    exact fun ⟨hnone, t, ht, hct, hnt⟩ => ⟨hnone, t, List.mem_cons_of_mem _ ht, hct, hnt⟩

/-- What a walk has to match: the copies that are found, and the draft it came from. -/
def Matches (w : Walk) (found : Except Error (List Draft)) (After : Draft → Prop) : Prop :=
  w.failure = none →
    ∃ copies, found = .ok copies ∧ List.Forall₂ (Twin []) w.found copies ∧ After w.draft

/-- One value after the other, in place and on copies. -/
theorem tryAll_matches {attempt : Choice → Draft → Walk}
    {onCopy : Choice → Except Error (List Draft)} {Between : Draft → Prop}
    (step : ∀ c d, Between d → Matches (attempt c d) (onCopy c) Between)
    (choices : List Choice) (d : Draft) (hd : Between d) :
    Matches (Walk.tryAll choices attempt d) (tryEach onCopy choices) Between := by
  induction choices generalizing d with
  | nil => exact fun _ => ⟨[], rfl, .nil, hd⟩
  | cons c rest ih =>
    intro hn
    rw [Walk.tryAll_cons] at hn ⊢
    obtain ⟨hfirst, hrest, hfound, hdraft⟩ := Walk.andThen_of_failure_eq_none hn
    obtain ⟨copies, hc, hcopies, hbetween⟩ := step c d hd hfirst
    obtain ⟨more, hm, hmore, hafter⟩ := ih _ hbetween hrest
    refine ⟨copies ++ more, ?_, ?_, hdraft ▸ hafter⟩
    · rw [tryEach, hc, hm]
      rfl
    · rw [hfound]
      exact List.rel_append hcopies hmore

theorem exists_of_map_isSome_eq {x y : Except RuleError (Option Refusal)}
    (h : x.map Option.isSome = y.map Option.isSome) {v : Option Refusal} (hy : y = .ok v) :
    ∃ u, x = .ok u ∧ u.isSome = v.isSome := by
  subst hy
  cases x with
  | error e => contradiction
  | ok u => exact ⟨u, rfl, Except.ok.inj h⟩

/-- One value in place and on a copy, given that the rest of the walk matches. -/
theorem tryInPlace_matches {ctx : Context} {s : Spot} {pending : List Spot} {copy : Draft}
    {next : Draft → Walk} {onCopy : Draft → Except Error (List Draft)}
    (hosts : ∀ t ∈ pending, hostOf s ≠ hostOf t) (c : Choice)
    (hnext : ∀ d', (copy.chooseAt s c).2 = none → Twin pending d' (copy.chooseAt s c).1 →
      Matches (next d') (onCopy (copy.chooseAt s c).1)
        (Twin pending · (copy.chooseAt s c).1))
    (d : Draft) (h : Sibling s pending d copy) :
    Matches (tryInPlace ctx s next c d) (tryOnCopy ctx s onCopy copy c)
      (Sibling s pending · copy) := by
  intro hn
  obtain ⟨hchoose, hcases⟩ := tryInPlace_of_failure_eq_none hn
  obtain ⟨hcn, htwin⟩ := h.chooseAt hosts hchoose
  have hback {d' : Draft} (h' : Twin pending d' (copy.chooseAt s c).1) : Sibling s pending d' copy :=
    h'.sibling_of_chooseAt hosts h.copy_coherent hcn
  have hverdict := htwin.alike.verdictAt_eq htwin.coherent htwin.copy_coherent ctx s
  rcases hcases with ⟨⟨r, hv⟩, hnil, hdraft⟩ | ⟨hv, heq⟩
  · obtain ⟨v', hv', hsome⟩ := exists_of_map_isSome_eq hverdict.symm hv
    obtain ⟨r', rfl⟩ := Option.isSome_iff_exists.mp hsome
    rw [hnil, hdraft]
    exact ⟨[], tryOnCopy_of_refused hcn hv', .nil, hback htwin⟩
  · obtain ⟨v', hv', hsome⟩ := exists_of_map_isSome_eq hverdict.symm hv
    obtain rfl : v' = none := by simpa using hsome
    rw [heq] at hn ⊢
    obtain ⟨copies, hfound, hcopies, hafter⟩ := hnext _ hcn htwin hn
    exact ⟨copies, (tryOnCopy_of_kept hcn hv').trans hfound, hcopies, hback hafter⟩

/-- A walk through spots in different encodings matches the search on copies. -/
theorem walkSpots_matches (ctx : Context) (spots : List Spot)
    (hosts : spots.Pairwise fun s t => hostOf s ≠ hostOf t) (d copy : Draft)
    (h : Twin spots d copy) (ready : ∀ s ∈ spots, copy.Ready s) :
    Matches (walkSpots ctx spots d) (copySearch ctx spots copy) (Twin spots · copy) := by
  induction spots generalizing d copy with
  | nil => exact fun _ => ⟨[copy], rfl, .cons h .nil, h⟩
  | cons s rest ih =>
    obtain ⟨hs, hrest⟩ := List.pairwise_cons.mp hosts
    intro hn
    rw [copySearch]
    cases hc : copy.choicesAt? s with
    | none =>
      rw [walkSpots_of_passed ((h.alike.choicesAt?_eq s).trans hc)] at hn ⊢
      have htail : Twin rest d copy :=
        ⟨h.coherent, h.copy_coherent, h.alike, fun n => (h.remembered n).tail (.inl hc)⟩
      obtain ⟨copies, hcopies, htwins, hafter⟩ :=
        ih hrest d copy htail (fun t ht => ready t (List.mem_cons_of_mem _ ht)) hn
      refine ⟨copies, hcopies, htwins, hafter.coherent, hafter.copy_coherent, hafter.alike, ?_⟩
      exact fun n => (hafter.remembered n).imp_right fun ⟨hnone, t, ht, hct, hnt⟩ =>
        ⟨hnone, t, List.mem_cons_of_mem _ ht, hct, hnt⟩
    | some choices =>
      obtain ⟨_, rfl, htried, hre, hfound, hdraft⟩ :=
        walkSpots_of_offered ((h.alike.choicesAt?_eq s).trans hc) hn
      have hstep (c : Choice) (e : Draft) (he : Sibling s rest e copy) :
          Matches (tryInPlace ctx s (walkSpots ctx rest) c e)
            (tryOnCopy ctx s (copySearch ctx rest) copy c) (Sibling s rest · copy) :=
        tryInPlace_matches hs c (fun d' hcn htwin =>
          ih hrest d' _ htwin fun t ht => (ready t (List.mem_cons_of_mem _ ht)).chooseAt
            h.copy_coherent hcn (hs t ht)) e he
      obtain ⟨copies, hcopies, htwins, hsibling⟩ := tryAll_matches hstep choices d h.sibling htried
      obtain ⟨hname, hplace⟩ := (ready s (List.mem_cons_self ..)).resolve_left (by simp [hc])
      rw [hfound, hdraft]
      exact ⟨copies, hcopies, htwins, hsibling.reopenAt hname hplace (by rw [hc]; rfl) hre⟩

end Draft
end ChartAdvisor
