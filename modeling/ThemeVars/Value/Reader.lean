/-
Reading a value: `var()`, a sigil before a name and `#` before a curly block
are told from text. Only a bad url, an unterminated string and a `var()` that
does not name a custom property are refused.
-/
import ThemeVars.Value.Basic
import ThemeVars.Text.Position
import ThemeVars.Text.Search

namespace ThemeVars

/-- What is wrong with a value. -/
inductive ValueFault where
  | badUrl (text : String)
  | badString (text : String)
  | badReference (token : Token)
deriving DecidableEq, Repr

/-- A fault and the number of characters up to the end of the token at fault. -/
structure ValueError where
  fault : ValueFault
  stop : Nat
deriving DecidableEq, Repr

namespace ValueError

def describe : ValueFault → String
  | .badUrl text => "bad url '" ++ text ++ "'"
  | .badString text => "unterminated string '" ++ text ++ "'"
  | .badReference token => "invalid var() reference starting with " ++ token.describe

/-- The fault and its place in the value. -/
def message (e : ValueError) (value : String) : String :=
  let position := Text.valuePosition (value.toList.take e.stop)
  describe e.fault ++ " (line " ++ toString position.line ++ ", column " ++ toString position.column ++ ")"

end ValueError

/-- The text that closes a block, whether it is there or not. -/
def Bracket.closer : Bracket → String
  | .round => ")"
  | .square => "]"
  | .curly => "\x7d"

namespace Value

/-- The opener of a `var()`. -/
def opensVar (t : Token) : Bool :=
  match t with
  | .function name => name.lowered == "var"
  | _ => false

/-- The first token of a sequence and where it stops. -/
def badHead : Pieces → ValueError
  | .done => ⟨.badReference .space, 0⟩
  | .leaf l _ => ⟨.badReference l.token, l.stop⟩
  | .block opener _ _ _ _ => ⟨.badReference opener.token, opener.stop⟩

/-- What follows the name in a `var()`: nothing, or a comma and a fallback. -/
def fallbackOf (p : Pieces) : Except ValueError (Option Pieces) :=
  match p.afterFiller with
  | .done => .ok .none
  | .leaf l rest => if l.token == .comma then .ok (.some rest.afterFiller) else .error (badHead (.leaf l rest))
  | q => .error (badHead q)

/-- The inside of a `var()`: the name, empty if there is none, and the
fallback. -/
def varParts (inner : Pieces) : Except ValueError (String × Option Pieces) :=
  match inner.afterFiller with
  | .done => .ok ("", .none)
  | .leaf l rest =>
    match l.token with
    | .ident name =>
      if name.beginsWith "--" then (fallbackOf rest).map (name, ·) else .error (badHead (.leaf l rest))
    | _ => .error (badHead (.leaf l rest))
  | q => .error (badHead q)

theorem size_fallbackOf {p q : Pieces} (h : fallbackOf p = .ok (.some q)) : q.size ≤ p.size := by
  unfold fallbackOf at h
  split at h
  · simp at h
  · rename_i l rest hp
    split at h
    · simp only [Except.ok.injEq, Option.some.injEq] at h
      have h1 := Pieces.size_dropLeaves_le Token.isFiller rest
      have h2 := Pieces.size_dropLeaves_le Token.isFiller p
      rw [Pieces.afterFiller] at h hp
      rw [hp, Pieces.size] at h2
      subst h
      omega
    · simp at h
  · simp at h

theorem size_varParts {p q : Pieces} {name : String} (h : varParts p = .ok (name, .some q)) :
    q.size ≤ p.size := by
  unfold varParts at h
  split at h
  · simp at h
  · rename_i l rest hp
    have h2 := Pieces.size_dropLeaves_le Token.isFiller p
    rw [Pieces.afterFiller] at hp
    rw [hp, Pieces.size] at h2
    split at h
    · split at h
      · cases hf : fallbackOf rest with
        | error e => simp [hf, Except.map] at h
        | ok r =>
          simp only [hf, Except.map, Except.ok.injEq, Prod.mk.injEq] at h
          obtain ⟨_, rfl⟩ := h
          have := size_fallbackOf hf
          omega
      · simp at h
    · simp at h
  · simp at h

/-- The inside of the curly block that follows, comments aside, and what
stands after it. -/
def curlyNext? (p : Pieces) : Option (Pieces × Pieces) :=
  match p.afterComments with
  | .block _ .curly inner _ rest => .some (inner, rest)
  | _ => .none

/-- The name that follows, comments aside: what it reads as, its text with the
comments, and what stands after it. -/
def nameNext? (p : Pieces) : Option (String × List Char × Pieces) :=
  match p.afterComments with
  | .leaf l rest =>
    match l.token with
    | .ident name => .some (name, p.leavesText (· == .comment) ++ l.text, rest)
    | _ => .none
  | _ => .none

theorem size_curlyNext? {p inner rest : Pieces} (h : curlyNext? p = .some (inner, rest)) :
    inner.size < p.size ∧ rest.size < p.size := by
  have h2 := Pieces.size_dropLeaves_le (· == .comment) p
  unfold curlyNext? Pieces.afterComments at h
  split at h
  · rename_i hp
    simp only [Option.some.injEq, Prod.mk.injEq] at h
    obtain ⟨rfl, rfl⟩ := h
    rw [hp, Pieces.size] at h2
    omega
  · simp at h

theorem size_nameNext? {p rest : Pieces} {name : String} {raw : List Char}
    (h : nameNext? p = .some (name, raw, rest)) : rest.size < p.size := by
  have h2 := Pieces.size_dropLeaves_le (· == .comment) p
  unfold nameNext? Pieces.afterComments at h
  split at h
  · rename_i l r hp
    split at h
    · simp only [Option.some.injEq, Prod.mk.injEq] at h
      obtain ⟨_, _, rfl⟩ := h
      rw [hp, Pieces.size] at h2
      omega
    · simp at h
  · simp at h

/-- Reads pieces; `sigil` is the character that starts a reference besides
`var()`. A block is always written with its closer. -/
def ofPieces (sigil : Option Char) (p : Pieces) : Except ValueError Value :=
  match p with
  | .done => .ok .done
  | .leaf l rest =>
    match l.token with
    | .badUrl s => .error ⟨.badUrl s, l.stop⟩
    | .badString s => .error ⟨.badString s, l.stop⟩
    | .atKeyword name =>
      if sigil == .some '@' then
        (ofPieces sigil rest).map (.reference ⟨"@" ++ name, String.ofList l.text, .sigil⟩)
      else (ofPieces sigil rest).map (consText (String.ofList l.text))
    | .delim c =>
      if c == '#' then
        match _h : curlyNext? rest with
        | .some (inner, after) => do
          let inner ← ofPieces sigil inner
          (ofPieces sigil after).map (.interpolation inner)
        | .none => (ofPieces sigil rest).map (consText (String.ofList l.text))
      else if sigil == .some c then
        match _h : nameNext? rest with
        | .some (name, raw, after) =>
          let r : Reference := ⟨String.ofList (c :: name.toList), String.ofList (l.text ++ raw), .sigil⟩
          (ofPieces sigil after).map (.reference r)
        | .none => (ofPieces sigil rest).map (consText (String.ofList l.text))
      else (ofPieces sigil rest).map (consText (String.ofList l.text))
    | _ => (ofPieces sigil rest).map (consText (String.ofList l.text))
  | .block opener bracket inner closer rest =>
    if opensVar opener.token then
      let raw := String.ofList (Pieces.blockText opener inner closer)
      match _h : varParts inner with
      | .error e => .error e
      | .ok (name, .none) => (ofPieces sigil rest).map (.reference ⟨name, raw, .var⟩)
      | .ok (name, .some fallback) => do
        let fallback ← ofPieces sigil fallback
        (ofPieces sigil rest).map (.guarded ⟨name, raw, .var⟩ fallback)
    else do
      let inner ← ofPieces sigil inner
      (ofPieces sigil rest).map fun rest =>
        consText (String.ofList opener.text) (inner.append (consText bracket.closer rest))
termination_by p.size
decreasing_by
  all_goals simp only [Pieces.size]
  all_goals try omega
  · have := size_curlyNext? _h; omega
  · have := size_curlyNext? _h; omega
  · have := size_nameNext? _h; omega
  · have := size_varParts _h; omega

/-- Reads a value. -/
def read (sigil : Option Char) (value : String) : Except ValueError Value :=
  ofPieces sigil (.ofText value.toList)

end Value

end ThemeVars
