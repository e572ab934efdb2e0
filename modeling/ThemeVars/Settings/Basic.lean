/-
What can be configured. Every setting has a default.
-/
import ThemeVars.Dialect
import ThemeVars.Ident

namespace ThemeVars

structure Settings where
  /-- The dialect of files whose names tell none. -/
  dialect : Dialect := .css
  identMode : IdentMode := .debug
  /-- Take only what carries color from a theme. -/
  onlyColor : Bool := true
  /-- The files whose variables make up the theme. -/
  themeFiles : List Path := []
  /-- The attribute of the root element that tells the theme. -/
  themeAttribute : String := "data-theme"
  /-- The selector of the rules that are added. -/
  rootSelector : String := ":root"
  /-- List the theme in a comment at the end of files. -/
  documentTheme : Bool := false
  /-- What messages are signed with. -/
  engineIdentity : String := "themeshift"
deriving DecidableEq, Repr, Inhabited

namespace Settings

def isThemeFile (s : Settings) (file : Path) : Bool := s.themeFiles.any (·.same file)

/-- The settings with the theme files in normal form. -/
def normalized (s : Settings) : Settings := { s with themeFiles := s.themeFiles.map Path.normalize }

/-- The dialect that the file's name tells, or the configured one. -/
def dialectOf (s : Settings) (file : Path) : Dialect := (Dialect.ofPath? file).getD s.dialect

end Settings

end ThemeVars
