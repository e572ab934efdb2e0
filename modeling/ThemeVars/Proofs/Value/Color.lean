/-
Colors in a value. `isName_iff`: halving a sorted list finds every name of it.
`isValue_iff`: the search, which stops at the first color and reads block by
block, finds a color exactly if there is one among all the tokens of the value,
and nothing that it finds in a block is lost.
-/
import ThemeVars.Value.Color
import ThemeVars.Proofs.Token.Matching
import Mathlib.Data.List.Basic
import Mathlib.Tactic.Common

namespace ThemeVars.Color

/-! ## Names -/

section

variable {sorted : List String} {name : String} {k : Nat}

/-- In a sorted list, what is less than a name stands before it. -/
theorem lt_iff_of_sorted (hs : sorted.Pairwise (· < ·)) (hk : sorted[k]? = .some name) {m : Nat} (hm : m < sorted.length) :
    name < sorted.getD m "" ↔ k < m := by
  obtain ⟨hlength, rfl⟩ := List.getElem?_eq_some_iff.1 hk
  rw [List.getD_eq_getElem?_getD, List.getElem?_eq_getElem hm, Option.getD_some]
  constructor
  · intro hlt
    by_contra hle
    rcases Nat.lt_or_eq_of_le (Nat.le_of_not_lt hle) with h | h
    · exact String.lt_asymm hlt (List.pairwise_iff_getElem.1 hs m k hm hlength h)
    · subst h
      exact String.lt_irrefl _ hlt
  · exact List.pairwise_iff_getElem.1 hs k m hlength hm

/-- The part that is left has the name's place in it, at each step. -/
theorem place_eq (hs : sorted.Pairwise (· < ·)) (hk : sorted[k]? = .some name) (first size : Nat) (hfirst : first ≤ k)
    (hlast : k < first + size) (hsize : first + size ≤ sorted.length) : place sorted name first size = k := by
  induction size using Nat.strongRecOn generalizing first with
  | _ size ih =>
    rw [place]
    split
    · omega
    · have hmiddle := lt_iff_of_sorted hs hk (m := first + size / 2) (by omega)
      simp only [hmiddle]
      split
      · exact ih _ (by omega) _ hfirst (by omega) (by omega)
      · exact ih _ (by omega) _ (by omega) (by omega) (by omega)

end

theorem names_sorted : names.Pairwise (· < ·) := by
  have : Trans (α := String) (· < ·) (· < ·) (· < ·) := ⟨String.lt_trans⟩
  rw [← List.isChain_iff_pairwise]
  decide +kernel

/-- Every name is found, in letters of either case, and nothing else. -/
theorem isName_iff (ident : String) : isName ident = true ↔ ident.lowered ∈ names := by
  rw [isName, beq_iff_eq]
  constructor
  · exact List.mem_of_getElem?
  · intro h
    obtain ⟨k, hk⟩ := List.mem_iff_getElem?.1 h
    have hlength := (List.getElem?_eq_some_iff.1 hk).1
    rw [place_eq names_sorted hk 0 names.length (Nat.zero_le k) (by omega) (by omega), hk]

/-! ## Tokens -/

/-- The token is a color or an image, or begins a function that gives one. -/
inductive Shows : Token → Prop
  | name {ident} : ident.lowered ∈ names → Shows (.ident ident)
  | hash {digits} : digits.length ∈ [3, 4, 6, 8] → (∀ c ∈ digits.toList, isHexDigit c = true) → Shows (.hash digits)
  | idHash {digits} : digits.length ∈ [3, 4, 6, 8] → (∀ c ∈ digits.toList, isHexDigit c = true) → Shows (.idHash digits)
  | url {address} : Shows (.url address)
  | function {name} : name.lowered ∈ functions → Shows (.function name)

theorem isHex_iff (digits : String) :
    isHex digits = true ↔ digits.length ∈ [3, 4, 6, 8] ∧ ∀ c ∈ digits.toList, isHexDigit c = true := by
  rw [isHex, Bool.and_eq_true, List.contains_iff_mem, List.all_eq_true]

theorem isToken_iff (t : Token) : isToken t = true ↔ Shows t := by
  constructor
  · intro h
    cases t with
    | ident => exact .name ((isName_iff _).1 h)
    | hash => exact .hash ((isHex_iff _).1 h).1 ((isHex_iff _).1 h).2
    | idHash => exact .idHash ((isHex_iff _).1 h).1 ((isHex_iff _).1 h).2
    | url => exact .url
    | function => exact .function (List.contains_iff_mem.1 h)
    | _ => cases h
  · intro h
    cases h with
    | name h => exact (isName_iff _).2 h
    | hash hn hd => exact (isHex_iff _).2 ⟨hn, hd⟩
    | idHash hn hd => exact (isHex_iff _).2 ⟨hn, hd⟩
    | url => rfl
    | function h => exact List.contains_iff_mem.2 h

/-! ## Blocks -/

theorem drain_eq_done (p : Pieces) : drain p = .done := by
  induction p with
  | done => rfl
  | leaf l rest ih => exact ih
  | block opener bracket inner closer rest _ ih => exact ih

/-- A block is read to its end, whatever was found where in it. -/
theorem closing_drain (found : Bool) (left : Pieces) : closing found (drain left) = .some found := by
  rw [drain_eq_done]
  rfl

/-- What the search finds is a lexeme at some depth. -/
theorem search_iff {p : Pieces} (h : p.Matched) : (search p).1 = true ↔ ∃ l ∈ p.lexemes, isToken l.token = true := by
  induction p with
  | done => simp [search, Pieces.lexemes]
  | leaf l rest ih =>
    rw [search]
    split
    · rename_i hl
      simp [Pieces.lexemes, hl]
    · rename_i hl
      rw [ih h.2]
      simp [Pieces.lexemes, hl]
  | block opener bracket inner closer rest ihi ih =>
    obtain ⟨-, -, hinner, hcloser, -, hrest⟩ := h
    have hclosing : ∀ l ∈ closer.toList, isToken l.token = false := by
      intro l hl
      rw [Option.mem_toList] at hl
      rw [(hcloser l hl).1]
      rfl
    have hmembers : (∃ l ∈ (Pieces.block opener bracket inner closer rest).lexemes, isToken l.token = true) ↔
        isToken opener.token = true ∨ (search inner).1 = true ∨ (search rest).1 = true := by
      rw [ihi hinner, ih hrest]
      simp only [Pieces.lexemes, List.cons_append, List.mem_cons, List.mem_append]
      grind
    rw [hmembers, search]
    simp only [closing_drain, Option.getD_some]
    split
    · rename_i hfound
      rw [Bool.or_eq_true] at hfound
      grind
    · rename_i hnone
      rw [Bool.or_eq_true, not_or] at hnone
      grind

/-- A value carries color if one of its tokens does, at any depth, whether or not
its brackets match. What is found in a block counts there. -/
theorem isValue_iff (value : String) :
    (isValue value = true ↔ ∃ l ∈ lexemes value.toList, Shows l.token) ∧
      ∀ inner : Pieces, closing (search inner).1 (drain (search inner).2) = .some (search inner).1 := by
  refine ⟨?_, fun inner => closing_drain _ _⟩
  rw [isValue, Pieces.ofText, search_iff (Pieces.matched_ofLexemes _), Pieces.lexemes_ofLexemes]
  simp only [isToken_iff]

/-- The address is in a block that is never closed, behind a bracket that closes
nothing. -/
example : isValue "calc) (a [1px, url(a.png" = true := by decide +kernel

end ThemeVars.Color
