import ChartAdvisor.Document.Readable
import ChartAdvisor.Proofs.Pointwise

/-!
# What reading JSON leaves of a text

What follows a value that was read is the end of the text. So the text of a list has a comma in it,
unless there is one item at most.
-/
namespace ChartAdvisor

/-- What is left where something was read is the end of the text. -/
def LeavesSuffix {α : Type} (read : List Char → Option (α × List Char)) : Prop :=
  ∀ {cs : List Char} {a : α} {rest : List Char}, read cs = some (a, rest) → rest <:+ cs

namespace Scientific

theorem leavesSuffix_readFraction? : LeavesSuffix readFraction? := by
  intro cs digits rest h
  unfold readFraction? at h
  split at h
  · dsimp only at h
    split at h
    · contradiction
    · obtain ⟨-, rfl⟩ := Prod.mk.inj (Option.some.inj h)
      exact (List.dropWhile_suffix _).trans (List.suffix_cons _ _)
  · obtain ⟨-, rfl⟩ := Prod.mk.inj (Option.some.inj h)
    exact List.suffix_rfl

theorem leavesSuffix_readExponent? : LeavesSuffix readExponent? := by
  intro cs exponent rest h
  cases cs with
  | nil =>
    obtain ⟨-, rfl⟩ := Prod.mk.inj (Option.some.inj h)
    exact List.suffix_rfl
  | cons c tail =>
    dsimp only [readExponent?] at h
    split at h
    · split at h <;> split at h <;> first | contradiction | obtain ⟨-, rfl⟩ := Prod.mk.inj (Option.some.inj h)
      · exact (List.dropWhile_suffix _).trans (List.suffix_append [c, '+'] _)
      · exact (List.dropWhile_suffix _).trans (List.suffix_append [c, '-'] _)
      · exact (List.dropWhile_suffix _).trans (List.suffix_cons _ _)
    · obtain ⟨-, rfl⟩ := Prod.mk.inj (Option.some.inj h)
      exact List.suffix_rfl

end Scientific

namespace Json

theorem suffix_of_skipBlanks {cs tail : List Char} (start : List Char)
    (h : skipBlanks cs = start ++ tail) : tail <:+ cs :=
  (List.suffix_append start tail).trans (h ▸ List.dropWhile_suffix _)

theorem leavesSuffix_readCodes? : LeavesSuffix readCodes? := by
  intro cs codes rest h
  fun_induction readCodes? cs generalizing codes rest with
  | case1 => contradiction
  | case2 tail =>
    obtain ⟨-, rfl⟩ := Prod.mk.inj (Option.some.inj h)
    exact List.suffix_cons _ _
  | case3 a b c d tail ih =>
    obtain ⟨code, -, h⟩ := Option.bind_eq_some_iff.mp h
    obtain ⟨⟨codes, rest⟩, hread, h⟩ := Option.bind_eq_some_iff.mp h
    obtain ⟨-, rfl⟩ := Prod.mk.inj (Option.some.inj h)
    exact (ih hread).trans (List.suffix_append ['\\', 'u', a, b, c, d] _)
  | case4 c tail _ ih =>
    obtain ⟨code, -, h⟩ := Option.bind_eq_some_iff.mp h
    obtain ⟨⟨codes, rest⟩, hread, h⟩ := Option.bind_eq_some_iff.mp h
    obtain ⟨-, rfl⟩ := Prod.mk.inj (Option.some.inj h)
    exact (ih hread).trans (List.suffix_append ['\\', c] _)
  | case5 => contradiction
  | case6 c tail _ _ _ _ ih =>
    obtain ⟨⟨codes, rest⟩, hread, h⟩ := Option.bind_eq_some_iff.mp h
    obtain ⟨-, rfl⟩ := Prod.mk.inj (Option.some.inj h)
    exact (ih hread).trans (List.suffix_cons _ _)

theorem leavesSuffix_readNumber? : LeavesSuffix readNumber? := by
  intro cs n rest h
  unfold readNumber? at h
  split at h
  · next negative digits hsign =>
    have hdigits : digits <:+ cs := by
      split at hsign <;> obtain ⟨-, rfl⟩ := Prod.mk.inj hsign
      · exact List.suffix_cons _ _
      · exact List.suffix_rfl
    dsimp only at h
    split at h
    · contradiction
    · obtain ⟨⟨fraction, power⟩, hfraction, h⟩ := Option.bind_eq_some_iff.mp h
      obtain ⟨⟨exponent, left⟩, hexponent, h⟩ := Option.bind_eq_some_iff.mp h
      have hleft : left <:+ cs := (Scientific.leavesSuffix_readExponent? hexponent).trans
        ((Scientific.leavesSuffix_readFraction? hfraction).trans
          ((List.dropWhile_suffix _).trans hdigits))
      dsimp only at h
      split at h <;> obtain ⟨-, rfl⟩ := Prod.mk.inj (Option.some.inj h) <;> exact hleft

/-- A step of the reader leaves the end of a text if the steps inside it do. -/
theorem leavesSuffix_read (fuel : Nat) :
    LeavesSuffix (readValue? fuel) ∧ LeavesSuffix (readItems? fuel) ∧ LeavesSuffix (readEntries? fuel) := by
  induction fuel with
  | zero => exact ⟨nofun, nofun, nofun⟩
  | succ fuel ih =>
    obtain ⟨hvalue, hitems, hentries⟩ := ih
    refine ⟨?_, ?_, ?_⟩
    · intro cs d rest h
      rw [readValue?] at h
      split at h
      · next heq =>
        obtain ⟨-, rfl⟩ := Prod.mk.inj (Option.some.inj h)
        exact suffix_of_skipBlanks ['n', 'u', 'l', 'l'] heq
      · next heq =>
        obtain ⟨-, rfl⟩ := Prod.mk.inj (Option.some.inj h)
        exact suffix_of_skipBlanks ['t', 'r', 'u', 'e'] heq
      · next heq =>
        obtain ⟨-, rfl⟩ := Prod.mk.inj (Option.some.inj h)
        exact suffix_of_skipBlanks ['f', 'a', 'l', 's', 'e'] heq
      · next heq =>
        obtain ⟨⟨codes, tail⟩, hread, h⟩ := Option.bind_eq_some_iff.mp h
        obtain ⟨-, rfl⟩ := Prod.mk.inj (Option.some.inj h)
        exact (leavesSuffix_readCodes? hread).trans (suffix_of_skipBlanks ['"'] heq)
      · next heq =>
        split at h
        · next hend =>
          obtain ⟨-, rfl⟩ := Prod.mk.inj (Option.some.inj h)
          exact (suffix_of_skipBlanks [']'] hend).trans (suffix_of_skipBlanks ['['] heq)
        · obtain ⟨⟨items, tail⟩, hread, h⟩ := Option.bind_eq_some_iff.mp h
          obtain ⟨-, rfl⟩ := Prod.mk.inj (Option.some.inj h)
          exact (hitems hread).trans
            ((List.dropWhile_suffix _).trans (suffix_of_skipBlanks ['['] heq))
      · next heq =>
        split at h
        · next hend =>
          obtain ⟨-, rfl⟩ := Prod.mk.inj (Option.some.inj h)
          exact (suffix_of_skipBlanks ['}'] hend).trans (suffix_of_skipBlanks ['{'] heq)
        · obtain ⟨⟨entries, tail⟩, hread, h⟩ := Option.bind_eq_some_iff.mp h
          obtain ⟨-, rfl⟩ := Prod.mk.inj (Option.some.inj h)
          exact (hentries hread).trans
            ((List.dropWhile_suffix _).trans (suffix_of_skipBlanks ['{'] heq))
      · obtain ⟨⟨n, tail⟩, hread, h⟩ := Option.bind_eq_some_iff.mp h
        obtain ⟨-, rfl⟩ := Prod.mk.inj (Option.some.inj h)
        exact (leavesSuffix_readNumber? hread).trans (List.dropWhile_suffix _)
    · intro cs items rest h
      rw [readItems?] at h
      obtain ⟨⟨v, left⟩, hread, h⟩ := Option.bind_eq_some_iff.mp h
      dsimp only at h
      split at h
      · next heq =>
        obtain ⟨⟨more, tail⟩, hmore, h⟩ := Option.bind_eq_some_iff.mp h
        obtain ⟨-, rfl⟩ := Prod.mk.inj (Option.some.inj h)
        exact (hitems hmore).trans ((suffix_of_skipBlanks [','] heq).trans (hvalue hread))
      · next heq =>
        obtain ⟨-, rfl⟩ := Prod.mk.inj (Option.some.inj h)
        exact (suffix_of_skipBlanks [']'] heq).trans (hvalue hread)
      · contradiction
    · intro cs entries rest h
      rw [readEntries?] at h
      split at h
      · next hquote =>
        obtain ⟨⟨codes, name⟩, hcodes, h⟩ := Option.bind_eq_some_iff.mp h
        dsimp only at h
        split at h
        · next hcolon =>
          obtain ⟨⟨v, left⟩, hread, h⟩ := Option.bind_eq_some_iff.mp h
          have hleft : left <:+ cs := (hvalue hread).trans ((suffix_of_skipBlanks [':'] hcolon).trans
            ((leavesSuffix_readCodes? hcodes).trans (suffix_of_skipBlanks ['"'] hquote)))
          dsimp only at h
          split at h
          · next heq =>
            obtain ⟨⟨more, tail⟩, hmore, h⟩ := Option.bind_eq_some_iff.mp h
            obtain ⟨-, rfl⟩ := Prod.mk.inj (Option.some.inj h)
            exact (hentries hmore).trans ((suffix_of_skipBlanks [','] heq).trans hleft)
          · next heq =>
            obtain ⟨-, rfl⟩ := Prod.mk.inj (Option.some.inj h)
            exact (suffix_of_skipBlanks ['}'] heq).trans hleft
          · contradiction
        · contradiction
      · contradiction

/-- Behind each item but the last there is a comma. -/
theorem comma_mem_of_readItems? {fuel : Nat} {cs rest : List Char} {items : List Document}
    (h : readItems? fuel cs = some (items, rest)) (hmany : 1 < items.length) : ',' ∈ cs := by
  cases fuel with
  | zero => contradiction
  | succ fuel =>
    rw [readItems?] at h
    obtain ⟨⟨v, left⟩, hread, h⟩ := Option.bind_eq_some_iff.mp h
    have hleft := (leavesSuffix_read fuel).1 hread
    dsimp only at h
    split at h
    · next heq =>
      have hcomma : ',' ∈ skipBlanks left := heq ▸ List.mem_cons_self
      exact hleft.subset ((List.dropWhile_suffix _).subset hcomma)
    · obtain ⟨rfl, -⟩ := Prod.mk.inj (Option.some.inj h)
      exact absurd hmany (Nat.lt_irrefl 1)
    · contradiction

theorem comma_mem_of_readDocument? {cs : List Char} {items : List Document}
    (h : readDocument? cs = some (.list items)) (hmany : 1 < items.length) : ',' ∈ cs := by
  unfold readDocument? at h
  split at h
  · next d rest hread =>
    obtain ⟨-, rfl⟩ : _ ∧ d = .list items := by simpa using h
    rw [readValue?] at hread
    split at hread
    · cases hread
    · cases hread
    · cases hread
    · obtain ⟨_, -, hread⟩ := Option.bind_eq_some_iff.mp hread
      cases hread
    · next heq =>
      split at hread
      · cases hread
        contradiction
      · obtain ⟨⟨found, left⟩, hitems, hread⟩ := Option.bind_eq_some_iff.mp hread
        cases hread
        exact (suffix_of_skipBlanks ['['] heq).subset
          ((List.dropWhile_suffix _).subset (comma_mem_of_readItems? hitems hmany))
    · split at hread
      · cases hread
      · obtain ⟨_, -, hread⟩ := Option.bind_eq_some_iff.mp hread
        cases hread
    · obtain ⟨_, -, hread⟩ := Option.bind_eq_some_iff.mp hread
      cases hread
  · contradiction

/-- A text without a comma is no list of two items. -/
theorem length_le_one_of_readTextAs? {α : Type} [Readable α] {text : List Char} {vs : List α}
    (h : readTextAs? (List α) text = some vs) (hcomma : ',' ∉ text) : vs.length ≤ 1 := by
  obtain ⟨d, hd, hread⟩ := Option.bind_eq_some_iff.mp h
  cases d with
  | list items =>
    rw [← (forall₂_of_mapM_eq_some (f := Readable.read? .byMeaning (depthLimit - 1)) hread).length_eq]
    exact Nat.le_of_not_lt fun hmany => hcomma (comma_mem_of_readDocument? hd hmany)
  | scalar | mapping => contradiction

end Json
end ChartAdvisor
