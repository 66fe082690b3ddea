import ChartAdvisor.Error.Basic

/-!
# Where a shorthand is cut

A shorthand may hold JSON. Brackets and quoted texts are skipped when it is cut into its
parts, and a list of parameters `key=value,key=value` is cut at the end of each value.
Cutting loses nothing: the value of a parameter and the rest make up the text again.
-/
namespace ChartAdvisor
namespace Shorthand

/-- Where a place in a text stands with respect to quotes. -/
inductive Quoting
  | outside | inside | escaped
deriving DecidableEq

def Quoting.next : Quoting → Char → Quoting
  | outside, c => if c = '"' then inside else outside
  | inside, c => if c = '\\' then escaped else if c = '"' then outside else inside
  | escaped, _ => inside

def isOpening (c : Char) : Bool := c == '[' || c == '{'

def isClosing (c : Char) : Bool := c == ']' || c == '}'

/-- How a character outside quotes changes the number of brackets that are open. -/
def bracketStep (c : Char) : Int := if isOpening c then 1 else if isClosing c then -1 else 0

/-- The pieces of a text between the delimiters that stand outside brackets and quotes. -/
def splitTop (delimiter : Char) : Int → Quoting → List Char → List (List Char)
  | _, _, [] => [[]]
  | depth, quoting, c :: rest =>
    if quoting = .outside ∧ depth = 0 ∧ c = delimiter then [] :: splitTop delimiter depth quoting rest
    else
      let depth := if quoting = .outside then depth + bracketStep c else depth
      match splitTop delimiter depth (quoting.next c) rest with
      | [] => [[c]]
      | piece :: pieces => (c :: piece) :: pieces

/-- The start of a text up to the bracket that closes the last of `depth` open ones, and the
rest. Brackets of either kind close each other. -/
def bracketed? : Nat → Quoting → List Char → Option (List Char × List Char)
  | _, _, [] => none
  | depth, .outside, c :: rest =>
    if isOpening c then (bracketed? (depth + 1) .outside rest).map fun (text, rest) => (c :: text, rest)
    else if isClosing c then
      match depth with
      | 0 => none
      | 1 => some ([c], rest)
      | depth + 2 => (bracketed? (depth + 1) .outside rest).map fun (text, rest) => (c :: text, rest)
    else
      (bracketed? depth (Quoting.next .outside c) rest).map fun (text, rest) => (c :: text, rest)
  | depth, quoting, c :: rest =>
    (bracketed? depth (quoting.next c) rest).map fun (text, rest) => (c :: text, rest)

theorem bracketed?_append {depth : Nat} {quoting : Quoting} {input text rest : List Char}
    (h : bracketed? depth quoting input = some (text, rest)) : text ++ rest = input := by
  fun_induction bracketed? depth quoting input generalizing text rest with
  | case1 => simp at h
  | case2 depth c tail _ ih | case6 depth c tail _ _ ih | case7 depth quoting c tail _ ih =>
    obtain ⟨⟨t, r⟩, hr, he⟩ := Option.map_eq_some_iff.1 h
    simp only [Prod.mk.injEq] at he
    rw [← he.1, ← he.2, List.cons_append, ih hr]
  | case3 => simp at h
  | case4 c tail => simp only [Option.some.injEq, Prod.mk.injEq] at h; simp [← h.1, ← h.2]
  | case5 c tail _ _ depth ih =>
    obtain ⟨⟨t, r⟩, hr, he⟩ := Option.map_eq_some_iff.1 h
    simp only [Prod.mk.injEq] at he
    rw [← he.1, ← he.2, List.cons_append, ih hr]

/-- Cuts a text behind the first `n` characters. -/
def cut (n : Nat) (text : List Char) : List Char × List Char := (text.take n, text.drop n)

/-- The value of a parameter and what follows it. A value starts with any number of question
marks and a bracket, or with a quote, which the next quote ends, or runs to the next comma. -/
def value? (after : List Char) : Except ShorthandFault (List Char × List Char) :=
  let marks := after.takeWhile (· == '?')
  let bare := after.dropWhile (· == '?')
  if bare.head?.any isOpening then
    match bracketed? 0 .outside bare with
    | some (text, rest) => .ok (marks ++ text, rest)
    | none => .error (.unbalanced (String.ofList after))
  else
    match after with
    | '"' :: tail =>
      match Text.cutAt? ['"'] tail with
      | some (text, _) => .ok (cut (text.length + 2) after)
      | none => .error (.unterminated (String.ofList after))
    | after => .ok (after.takeWhile (· != ','), after.dropWhile (· != ','))

theorem value?_append {after value rest : List Char} (h : value? after = .ok (value, rest)) :
    value ++ rest = after := by
  unfold value? at h
  simp only at h
  split at h
  · split at h
    · next text tail hb =>
      simp only [Except.ok.injEq, Prod.mk.injEq] at h
      rw [← h.1, ← h.2, List.append_assoc, bracketed?_append hb, List.takeWhile_append_dropWhile]
    · cases h
  · split at h
    · split at h
      · simp only [cut, Except.ok.injEq, Prod.mk.injEq] at h
        rw [← h.1, ← h.2, List.take_append_drop]
      · cases h
    · simp only [Except.ok.injEq, Prod.mk.injEq] at h
      rw [← h.1, ← h.2, List.takeWhile_append_dropWhile]

theorem length_of_value? {after value rest : List Char} (h : value? after = .ok (value, rest)) :
    rest.length ≤ after.length := by
  rw [← value?_append h, List.length_append]
  omega

theorem length_lt_of_value? {text after value rest : List Char} {c : Char}
    (hk : text.dropWhile (· != '=') = c :: after) (hv : value? after = .ok (value, rest)) :
    rest.length < text.length := by
  have hv := length_of_value? hv
  have hk := congrArg List.length hk
  have hw := (List.dropWhile_suffix (· != '=') (l := text)).length_le
  rw [List.length_cons] at hk
  omega

/-- The first `key=value` of a text and what follows it. -/
def parameter? (text : List Char) : Except ShorthandFault
    ((List Char × List Char) × { rest : List Char // rest.length < text.length }) :=
  let key := text.takeWhile (· != '=')
  match hk : text.dropWhile (· != '=') with
  | [] => .error (.noValue (String.ofList text))
  | _ :: after =>
    match hv : value? after with
    | .error fault => .error fault
    | .ok (value, rest) => .ok ((key, value), ⟨rest, length_lt_of_value? hk hv⟩)

/-- Cuts `key=value,key=value` into keys and values. A comma may end the list. -/
def splitParameters (text : List Char) : Except ShorthandFault (List (List Char × List Char)) :=
  if text.isEmpty then .ok []
  else
    match parameter? text with
    | .error fault => .error fault
    | .ok (parameter, ⟨[], _⟩) => .ok [parameter]
    | .ok (parameter, ⟨c :: more, _⟩) =>
      if c = ',' then (splitParameters more).map (parameter :: ·)
      else .error (.noComma (String.ofList (c :: more)))
termination_by text.length
decreasing_by simp only [List.length_cons] at *; omega

end Shorthand
end ChartAdvisor
