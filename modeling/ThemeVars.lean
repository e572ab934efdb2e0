import ThemeVars.Main
import ThemeVars.Proofs.Sheet.Printing
import ThemeVars.Proofs.Variable.Resolution
import ThemeVars.Proofs.Emission.Comments
import ThemeVars.Proofs.Value.Reading
import ThemeVars.Proofs.OrderedSet
import ThemeVars.Proofs.Variable.Dependencies
import ThemeVars.Proofs.Variable.Nesting
import ThemeVars.Proofs.Emission.Relocation
import ThemeVars.Proofs.Token.Name
import ThemeVars.Proofs.Value.Naming
import ThemeVars.Proofs.Sheet.Faults
import ThemeVars.Proofs.Session.Gathering
import ThemeVars.Proofs.Emission.Untouched
import ThemeVars.Proofs.Variable.Classification
import ThemeVars.Proofs.Variable.Invariant
import ThemeVars.Proofs.Variable.Inheritance
import ThemeVars.Proofs.Emission.Standalone
import ThemeVars.Proofs.Session.Modes
import ThemeVars.Proofs.Path.Relative
import ThemeVars.Proofs.Variable.Relocation
import ThemeVars.Proofs.Scope.Animation
import ThemeVars.Proofs.Variable.Failure
import ThemeVars.Proofs.Scope.Selector
import ThemeVars.Proofs.Sheet.Branches
import ThemeVars.Proofs.Scope.Keyframes
import ThemeVars.Proofs.Sheet.Imports
import ThemeVars.Proofs.Value.Kept
import ThemeVars.Proofs.Emission.Interpolation
import ThemeVars.Proofs.Ident
import ThemeVars.Proofs.Value.Color
import ThemeVars.Proofs.Value.Priority
import ThemeVars.Proofs.Path.Canonical
import ThemeVars.Proofs.Value.Verbatim
import ThemeVars.Proofs.Sheet.Ranges
import ThemeVars.Proofs.Emission.Meaning
