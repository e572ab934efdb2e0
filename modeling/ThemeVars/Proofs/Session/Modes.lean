/-
What the ident mode is good for: names. `classified_renames`: where no two of
the names that occur share an ident, in either mode, a source with its theme is
read, resolved and classified alike in both, save that each variable goes by
another ident.
-/
import ThemeVars.Proofs.Variable.Lockstep
import ThemeVars.Proofs.Variable.Scan
import ThemeVars.Sheet.Parser

namespace ThemeVars

open Relator (BiUnique)

/-- A text, the dialect that it is in, and the file that it is from. -/
structure Source where
  dialect : Dialect
  file : Option Path
  text : String

namespace Source

/-- What the source is processed under. -/
def context (src : Source) (settings : Settings) (imports : List Table) : PassContext :=
  ⟨settings, src.dialect, imports, .merged imports⟩

/-- The source read, scanned, and resolved against these tables. -/
def resolved (src : Source) (settings : Settings) (imports : List Table) : Except Error Pass := do
  let sheet ← Sheet.parse src.dialect src.file src.text
  (Pass.scan (src.context settings imports) sheet src.file).resolve (src.context settings imports)

/-- The tables of these, and then of theme sources, each resolved against all
before it. -/
def themes (settings : Settings) : List Table → List Source → Except Error (List Table)
  | imports, [] => return imports
  | imports, src :: rest => do
    let p ← src.resolved settings imports
    themes settings (imports ++ [p.table]) rest

/-- The tables of the theme, the table of the source with this theme, and the
classification of its variables. -/
def classified (src : Source) (settings : Settings) (theme : List Source) :
    Except Error (List Table × Table × Classification) := do
  let imports ← themes settings [] theme
  let p ← src.resolved settings imports
  return (imports, p.table, p.classify (src.context settings imports))

end Source

/-! ## Names -/

/-- The name of the variable that is declared, and those of the variables that its
value refers to. -/
def Declaration.names (d : Declaration) (dialect : Dialect) : List String :=
  d.name ::
    match Value.parse dialect.sigil? (Value.stripPriority d.raw) with
    | .ok value => (value.references.map (·.name)).filter (!·.isEmpty)
    | .error _ => []

/-- The names of the variables that the source declares or refers to. -/
def Source.names (src : Source) : List String :=
  match Sheet.parse src.dialect src.file src.text with
  | .ok sheet => (sheet.declarations src.dialect).flatMap (·.names src.dialect)
  | .error _ => []

/-- No two of the names share an ident. -/
def IdentMode.Separates (mode : IdentMode) (names : List String) : Prop :=
  ∀ a ∈ names, ∀ b ∈ names, Ident.ofName mode a = Ident.ofName mode b → a = b

instance (mode : IdentMode) (names : List String) : Decidable (mode.Separates names) :=
  inferInstanceAs (Decidable (∀ a ∈ names, ∀ b ∈ names, Ident.ofName mode a = Ident.ofName mode b → a = b))

/-- The two are the idents of one of the names. -/
def SameName (names : List String) (m m' : IdentMode) (i j : Ident) : Prop :=
  ∃ name ∈ names, i = .ofName m name ∧ j = .ofName m' name

theorem biUnique_sameName {names : List String} {m m' : IdentMode} (hm : m.Separates names) (hm' : m'.Separates names) :
    BiUnique (SameName names m m') := by
  constructor
  · rintro i j k ⟨a, ha, rfl, rfl⟩ ⟨b, hb, rfl, hab⟩
    rw [hm' a ha b hb hab]
  · rintro i j k ⟨a, ha, rfl, rfl⟩ ⟨b, hb, hab, rfl⟩
    rw [hm a ha b hb hab]

/-! ## Two modes -/

namespace Source

variable {ρ : Ident → Ident → Prop} {settings : Settings} {m m' : IdentMode} {src : Source}

theorem scan_renames (hρ : BiUnique ρ) {sheet : Sheet} {dialect : Dialect} (file : Option Path)
    (h : ∀ d ∈ sheet.declarations dialect, ρ (.ofName m d.name) (.ofName m' d.name)) :
    (sheet.scan file dialect m).Renames ρ (sheet.scan file dialect m') := by
  rw [Sheet.scan_eq, Sheet.scan_eq]
  refine Table.Renames.ofList hρ ?_
  rw [List.forall₂_map_left_iff, List.forall₂_map_right_iff, List.forall₂_same]
  exact fun d hd => ⟨h d hd, rfl, .nil⟩

/-- A source is resolved alike in both modes. -/
theorem resolved_renames (hρ : BiUnique ρ) (hsrc : ∀ name ∈ src.names, ρ (.ofName m name) (.ofName m' name))
    {imports imports' : List Table} (himports : List.Forall₂ (Table.Renames ρ) imports imports') :
    Together (fun p q => p.table.Renames ρ q.table) (src.resolved { settings with identMode := m } imports)
      (src.resolved { settings with identMode := m' } imports') := by
  unfold resolved
  unfold names at hsrc
  rcases hsheet : Sheet.parse src.dialect src.file src.text with e | sheet
  · exact .error
  · rw [hsheet, List.forall_mem_flatMap] at hsrc
    let s := Pass.surroundings (src.context { settings with identMode := m } imports) src.file
    let s' := Pass.surroundings (src.context { settings with identMode := m' } imports') src.file
    have hs : s.Renames ρ s' := ⟨rfl, rfl, himports⟩
    have hscan : (sheet.scan src.file src.dialect m).Renames ρ (sheet.scan src.file src.dialect m') :=
      scan_renames hρ src.file fun d hd => hsrc d hd d.name List.mem_cons_self
    have hstart : s.InStep ρ s' ⟨sheet.scan src.file src.dialect m, {}⟩ ⟨sheet.scan src.file src.dialect m', {}⟩ := by
      refine ⟨hscan, .nil, fun v hv value hvalue r hr hname => ?_⟩
      obtain ⟨d, hd, rfl⟩ := Sheet.mem_scan hv
      refine hsrc d hd r.name (List.mem_cons_of_mem _ ?_)
      change Value.parse src.dialect.sigil? (Value.stripPriority d.raw) = .ok value at hvalue
      rw [hvalue]
      exact List.mem_filter.2 ⟨List.mem_map_of_mem hr, by rw [hname]; rfl⟩
    change Together _ (Pass.resolve _ _) (Pass.resolve _ _)
    rw [Pass.resolve_eq, Pass.resolve_eq]
    exact (Surroundings.lockstep_resolveTable hρ hs _ _ hstart).map fun a b hab => hab.2.table

/-- So are theme sources, one after the other. -/
theorem themes_renames (hρ : BiUnique ρ) {theme : List Source}
    (htheme : ∀ src ∈ theme, ∀ name ∈ src.names, ρ (.ofName m name) (.ofName m' name))
    {imports imports' : List Table} (himports : List.Forall₂ (Table.Renames ρ) imports imports') :
    Together (List.Forall₂ (Table.Renames ρ)) (themes { settings with identMode := m } imports theme)
      (themes { settings with identMode := m' } imports' theme) := by
  induction theme generalizing imports imports' with
  | nil => exact .ok himports
  | cons src rest ih =>
    obtain ⟨hsrc, hrest⟩ := List.forall_mem_cons.1 htheme
    exact (resolved_renames hρ hsrc himports).bind fun p q hpq => ih hrest (List.rel_append himports (.cons hpq .nil))

/-- The ident mode is a renaming. Where no two of the names that occur in a source
and its theme share an ident, in either mode, reading, scanning, resolving and
classifying fail in both modes or in neither. What they come to are variables
that differ in idents alone, in the same order, with dependencies of the same
names, and the same names of each kind, in the same order. -/
theorem classified_renames (settings : Settings) (theme : List Source) (src : Source) (m m' : IdentMode)
    (hm : m.Separates ((src :: theme).flatMap names)) (hm' : m'.Separates ((src :: theme).flatMap names)) :
    Together
      (fun a b =>
        let ρ := SameName ((src :: theme).flatMap names) m m'
        List.Forall₂ (Table.Renames ρ) a.1 b.1 ∧ a.2.1.Renames ρ b.2.1 ∧ a.2.2.Renames ρ b.2.2)
      (src.classified { settings with identMode := m } theme) (src.classified { settings with identMode := m' } theme) := by
  have hρ := biUnique_sameName hm hm'
  have hnames : ∀ s ∈ src :: theme, ∀ name ∈ s.names,
      SameName ((src :: theme).flatMap names) m m' (.ofName m name) (.ofName m' name) :=
    fun s hs name hname => ⟨name, List.mem_flatMap.2 ⟨s, hs, hname⟩, rfl, rfl⟩
  obtain ⟨hsrc, htheme⟩ := List.forall_mem_cons.1 hnames
  refine (themes_renames hρ htheme .nil).bind fun imports imports' himports => ?_
  refine (resolved_renames hρ hsrc himports).bind fun p q hpq => .ok ⟨himports, hpq, ?_⟩
  exact Classifier.Renames.classify hρ ⟨hpq, Table.Renames.merged hρ himports, rfl⟩

/-- A theme of two variables, and a source that refers to the second. -/
def edges : Source := ⟨.scss, .some ⟨"/theme/edges.scss"⟩, "$base: red;\n$edge: url(i.png) $base;"⟩

def linking : Source := ⟨.scss, .some ⟨"/a/link.scss"⟩, "$link: $edge;"⟩

/-- What it comes to in one mode, it comes to in the other. -/
theorem classified_renames_linking :
    IdentMode.debug.Separates ([linking, edges].flatMap names) ∧
      IdentMode.production.Separates ([linking, edges].flatMap names) ∧
      ∃ a b, linking.classified { identMode := .debug } [edges] = .ok a ∧
        linking.classified { identMode := .production } [edges] = .ok b ∧
        a.2.1.records.map (fun v => (v.resolved, v.dependencies)) =
          [("url(../theme/i.png) red", [.ofName .debug "$base", .ofName .debug "$edge"])] ∧
        a.2.2 = ⟨[.ofName .debug "$base", .ofName .debug "$edge"], [.ofName .debug "$link"], []⟩ ∧
        a.2.1.Renames (SameName ([linking, edges].flatMap names) .debug .production) b.2.1 ∧
        a.2.2.Renames (SameName ([linking, edges].flatMap names) .debug .production) b.2.2 := by
  have hnames : [linking, edges].flatMap names = ["$link", "$edge", "$base", "$edge", "$base"] := by decide +kernel
  have hm : IdentMode.debug.Separates ([linking, edges].flatMap names) := by
    rw [hnames]
    decide +kernel
  have hm' : IdentMode.production.Separates ([linking, edges].flatMap names) := by
    rw [hnames]
    decide +kernel
  have hdebug : (linking.classified { identMode := .debug } [edges]).map
      (fun a => (a.2.1.records.map fun v => (v.resolved, v.dependencies), a.2.2)) =
      .ok ([("url(../theme/i.png) red", [.ofName .debug "$base", .ofName .debug "$edge"])],
        ⟨[.ofName .debug "$base", .ofName .debug "$edge"], [.ofName .debug "$link"], []⟩) := by
    decide +kernel
  obtain ⟨a, ha, heq⟩ := map_ok.1 hdebug
  obtain ⟨htable, hclassification⟩ := Prod.mk.inj heq
  have hrenames := classified_renames {} [edges] linking .debug .production hm hm'
  rw [ha] at hrenames
  generalize linking.classified { identMode := .production } [edges] = production at hrenames ⊢
  cases hrenames with
  | @ok _ b h => exact ⟨hm, hm', a, b, ha, rfl, htable, hclassification, h.2⟩

end Source

end ThemeVars
