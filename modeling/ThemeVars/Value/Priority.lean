/-
Priority markers at the end of a value: an exclamation mark and a word, such
as `!important` or `!default`, any number of them.
-/
import ThemeVars.Text.Blank

namespace ThemeVars.Value

open Text

def isMarkerChar (c : Char) : Bool := c.isAlpha || c == '-'

/-- What is left of a text written backwards once the marker at its front is
taken off, if there is one and blanks have been dropped: a word that begins
with a letter, blanks, and an exclamation mark. -/
def afterMarker? (backwards : List Char) : Option (List Char) :=
  if (backwards.takeWhile isMarkerChar).getLast?.any Char.isAlpha then
    match (backwards.dropWhile isMarkerChar).dropWhile isBlank with
    | c :: rest => if c == '!' then .some rest else .none
    | [] => .none
  else .none

theorem length_afterMarker? {s rest : List Char} (h : afterMarker? s = .some rest) :
    rest.length < s.length := by
  have h1 := (List.dropWhile_suffix (l := s) isMarkerChar).length_le
  have h2 := (List.dropWhile_suffix (l := s.dropWhile isMarkerChar) isBlank).length_le
  unfold afterMarker? at h
  split at h
  · split at h
    · rename_i hd
      split at h
      · rw [hd, List.length_cons] at h2
        simp only [Option.some.injEq] at h
        subst h
        omega
      · simp at h
    · simp at h
  · simp at h

/-- A text written backwards without the blanks and markers at its front. -/
def dropMarkers (backwards : List Char) : List Char :=
  let trimmed := backwards.dropWhile isBlank
  match _h : afterMarker? trimmed with
  | .some rest => dropMarkers rest
  | .none => trimmed
termination_by backwards.length
decreasing_by
  have h1 := length_afterMarker? _h
  have h2 := (List.dropWhile_suffix (l := backwards) isBlank).length_le
  simp only [trimmed] at h1
  omega

/-- The value without the priority markers and blanks at its end. -/
def stripPriority (value : String) : String :=
  String.ofList (dropMarkers value.toList.reverse).reverse

/-- The value without its priority markers, and what was taken off. -/
def splitPriority (value : String) : String × String :=
  let body := stripPriority value
  (body, String.ofList (value.toList.drop body.length))

end ThemeVars.Value
