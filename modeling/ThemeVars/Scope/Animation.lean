/-
The names of animations in the values of `animation` and `animation-name`.
-/
import ThemeVars.Token.Pieces
import ThemeVars.Value.Reader

namespace ThemeVars.Animation

/-- New names of keyframes by their old ones, the latest first. -/
abbrev Renaming := List (String × String)

def find? (renames : Renaming) (name : String) : Option String :=
  (renames.find? (·.1 == name)).map (·.2)

/-- The pieces with the names outside blocks replaced. What stands in a curly
block is written with the token after it; `carried` is what waits for that. -/
def renamePieces (renames : Renaming) (carried : List Char) : Pieces → List Char
  | .done => []
  | .leaf l rest =>
    let text := carried ++ l.text
    let written :=
      match l.token with
      | .ident name => ((find? renames name).map String.toList).getD text
      | .string name =>
        match find? renames name with
        | .some new => text.take 1 ++ new.toList ++ text.take 1
        | .none => text
      | _ => text
    written ++ renamePieces renames [] rest
  | .block opener bracket inner closer rest =>
    if bracket == .curly then
      carried ++ opener.text ++
        renamePieces renames (inner.text ++ closer.toList.flatMap (·.text)) rest
    else
      carried ++ opener.text ++ inner.text ++ bracket.closer.toList ++ renamePieces renames [] rest

/-- The value with the names of keyframes replaced. -/
def rename (renames : Renaming) (value : String) : String :=
  String.ofList (renamePieces renames [] (.ofText value.toList))

end ThemeVars.Animation
