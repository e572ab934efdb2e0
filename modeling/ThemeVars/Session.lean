/-
Processing files under one configuration. The theme of a file is gathered from
the theme files that its imports lead to, depth first and each once; an import
that cannot be found, or is no theme file, is passed over. What has been
entered is never entered again, which is why the search ends on circular
imports.
-/
import ThemeVars.Emission
import ThemeVars.Import
import ThemeVars.Scope.Annotation

namespace ThemeVars

/-- The theme files that were read, in the order in which they were done, and
the resolved table of each. -/
structure Themes where
  imports : List Table := []
  files : List Path := []

/-- One table of all, the later files overriding the earlier. -/
def Themes.theme (t : Themes) : Table := .merged t.imports

/-- The themes so far, and the files that were entered. -/
structure Gathering where
  themes : Themes := {}
  entered : List Path

/-- A configuration, its theme files in normal form, and where sheets come
from. -/
structure Session (m : Type → Type) where
  settings : Settings
  sources : Sources m

namespace Session

variable {m : Type → Type} [Monad m]

def new (settings : Settings) (sources : Sources m) : Session m := ⟨settings.normalized, sources⟩

def isThemeFile (s : Session m) (file : Path) : Bool := s.settings.isThemeFile file.normalize

def context (s : Session m) (dialect : Dialect) (themes : Themes) : PassContext :=
  ⟨s.settings, dialect, themes.imports, themes.theme⟩

/-- The variables of a theme file, resolved against the themes before it. -/
def themeTable (s : Session m) (path : Path) (sheet : Sheet) (themes : Themes) : Except Error Table := do
  let context := s.context (s.settings.dialectOf path) themes
  let pass ← (Pass.scan context sheet (.some path)).resolve context
  return pass.table

/-- Gathers the theme files that the specifiers lead to from the directory
`base`; `waiting` are the theme files that the search is not inside of. -/
def gather (s : Session m) (waiting : List Path) (base : Path) (dialect : Dialect) :
    List String → Gathering → ExceptT Error m Gathering
  | [], g => return g
  | specifier :: rest, g => do
    match ← (s.sources.resolve specifier base dialect : m (Option Path)) with
    | .none => s.gather waiting base dialect rest g
    | .some found =>
      let path := found.normalize
      if !s.settings.isThemeFile path || g.entered.any (·.same path) then
        s.gather waiting base dialect rest g
      else if _h : waiting.any (·.same path) = true then
        let text ← ExceptT.mk (s.sources.load path)
        let sheet ← ExceptT.mk (pure (Sheet.parse (s.settings.dialectOf path) (.some path) text))
        let g ← s.gather (path.others waiting) path.directory
          (s.settings.dialectOf path) (Import.specifiers sheet) { g with entered := path :: g.entered }
        let table ← ExceptT.mk (pure (s.themeTable path sheet g.themes))
        let themes : Themes := ⟨g.themes.imports ++ [table], g.themes.files ++ [path]⟩
        s.gather waiting base dialect rest { g with themes }
      else s.gather waiting base dialect rest g
termination_by specifiers => (waiting.length, specifiers.length)
decreasing_by
  · exact Prod.Lex.right _ (by simp)
  · exact Prod.Lex.right _ (by simp)
  · exact Prod.Lex.left _ _ (Path.length_others_lt _h)
  · exact Prod.Lex.right _ (by simp)
  · exact Prod.Lex.right _ (by simp)

/-- The themes that the imports of a sheet lead to. -/
def themes (s : Session m) (sheet : Sheet) (file : Path) : ExceptT Error m Themes := do
  let g ← s.gather s.settings.themeFiles file.directory (s.settings.dialectOf file)
    (Import.specifiers sheet) { entered := [file.normalize] }
  return g.themes

/-- Processes the sheet of a file. -/
def process (s : Session m) (sheet : Sheet) (file : Path) (mode : EmitMode) :
    ExceptT Error m Output := do
  let themes ← s.themes sheet file
  ExceptT.mk (pure (Pass.run (s.context (s.settings.dialectOf file) themes) mode sheet (.some file)))

/-- Processes the text of a file. -/
def processText (s : Session m) (text : String) (file : Path) (mode : EmitMode) :
    ExceptT Error m Output := do
  let sheet ← ExceptT.mk (pure (Sheet.parse (s.settings.dialectOf file) (.some file) text))
  s.process sheet file mode

/-- Restricts a sheet to a theme, by the configured attribute. -/
def annotate (s : Session m) (theme : String) (sheet : Sheet) : Sheet :=
  Scope.annotate s.settings.themeAttribute theme sheet

end Session

end ThemeVars
