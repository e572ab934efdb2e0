/-
Gathering the theme of a file. `Visits` are the steps of the search, `Ordered`
is what they come to, by induction on them. `themes_gathered`: the search ends,
also where files import each other, and it gathers the theme files that the
imports lead to, depth first and each once, wherever sheets come from.
-/
import ThemeVars.Proofs.Path.Normal
import ThemeVars.Proofs.Variable.Declaration
import ThemeVars.Session

namespace ThemeVars

/-- The themes with those of another file at the end. -/
def Themes.add (t : Themes) (path : Path) (table : Table) : Themes := ⟨t.imports ++ [table], t.files ++ [path]⟩

namespace Session

/-- The theme file that an import leads to, if it leads to one. -/
def themeFile? (s : Session Id) (base : Path) (dialect : Dialect) (specifier : String) : Option Path :=
  ((s.sources.resolve specifier base dialect : Option Path).map Path.normalize).filter s.settings.isThemeFile

/-- The theme files that the sheet of a file imports, in order. -/
def themeImports (s : Session Id) (file : Path) (sheet : Sheet) : List Path :=
  (Import.specifiers sheet).filterMap (s.themeFile? file.directory (s.settings.dialectOf file))

/-- The sheet of a file. -/
def sheetOf (s : Session Id) (path : Path) : Except Error Sheet :=
  (s.sources.load path : Except Error String) >>= Sheet.parse (s.settings.dialectOf path) (.some path)

/-- Visits each of the files that has not been entered by then. -/
def visitEach (visit : Path → Gathering → Except Error Gathering) : List Path → Gathering → Except Error Gathering
  | [], g => .ok g
  | path :: rest, g => do
    let g ← if path ∈ g.entered then .ok g else visit path g
    visitEach visit rest g

/-- Gathers the files and the theme files that they lead to. At most `depth`
of them are open, one inside the other; what nests deeper is left to
`beyond`. -/
def gatherNested (s : Session Id) (beyond : Path → Gathering → Except Error Gathering) :
    Nat → List Path → Gathering → Except Error Gathering
  | 0 => visitEach beyond
  | depth + 1 => visitEach fun path g => do
    let sheet ← s.sheetOf path
    let inner ← s.gatherNested beyond depth (s.themeImports path sheet) { g with entered := path :: g.entered }
    let table ← s.themeTable path sheet inner.themes
    return { inner with themes := inner.themes.add path table }

theorem gatherNested_nil (s : Session Id) (beyond : Path → Gathering → Except Error Gathering) (depth : Nat)
    (g : Gathering) : s.gatherNested beyond depth [] g = .ok g := by
  cases depth <;> rfl

theorem gatherNested_again {s : Session Id} {beyond : Path → Gathering → Except Error Gathering} {depth : Nat}
    {path : Path} {rest : List Path} {g : Gathering} (h : path ∈ g.entered) :
    s.gatherNested beyond depth (path :: rest) g = s.gatherNested beyond depth rest g := by
  cases depth <;> simp only [gatherNested, visitEach, h, if_true] <;> rfl

theorem gatherNested_enter {s : Session Id} {beyond : Path → Gathering → Except Error Gathering} {depth : Nat}
    {path : Path} {rest : List Path} {g : Gathering} (h : path ∉ g.entered) :
    s.gatherNested beyond (depth + 1) (path :: rest) g = (do
      let sheet ← s.sheetOf path
      let inner ← s.gatherNested beyond depth (s.themeImports path sheet) { g with entered := path :: g.entered }
      let table ← s.themeTable path sheet inner.themes
      s.gatherNested beyond (depth + 1) rest { inner with themes := inner.themes.add path table }) := by
  simp only [gatherNested, visitEach, h, if_false, bind_assoc, pure_bind]

/-- The themes that the imports of a sheet lead to. -/
def themesNested (s : Session Id) (beyond : Path → Gathering → Except Error Gathering) (depth : Nat) (sheet : Sheet)
    (file : Path) : Except Error Themes :=
  (s.gatherNested beyond depth (s.themeImports file sheet) { entered := [file.normalize] }).map (·.themes)

/-! ## One import after the other -/

variable {s : Session Id}

/-- The search as a computation that may fail. -/
def gathered (s : Session Id) (waiting : List Path) (base : Path) (dialect : Dialect) (specifiers : List String)
    (g : Gathering) : Except Error Gathering :=
  (s.gather waiting base dialect specifiers g).run

theorem gathered_nil (waiting : List Path) (base : Path) (dialect : Dialect) (g : Gathering) :
    s.gathered waiting base dialect [] g = .ok g := by
  unfold gathered
  rw [gather]
  rfl

/-- What an import does: it is passed over, unless it leads to a theme file that
has not been entered. -/
theorem gathered_cons (waiting : List Path) (base : Path) (dialect : Dialect) (specifier : String) (rest : List String)
    (g : Gathering) :
    s.gathered waiting base dialect (specifier :: rest) g =
      match s.themeFile? base dialect specifier with
      | .none => s.gathered waiting base dialect rest g
      | .some path =>
        if g.entered.any (·.same path) then s.gathered waiting base dialect rest g
        else if waiting.any (·.same path) then do
          let sheet ← s.sheetOf path
          let inner ← s.gathered (path.others waiting) path.directory (s.settings.dialectOf path)
            (Import.specifiers sheet) { g with entered := path :: g.entered }
          let table ← s.themeTable path sheet inner.themes
          s.gathered waiting base dialect rest { inner with themes := inner.themes.add path table }
        else s.gathered waiting base dialect rest g := by
  unfold gathered
  rw [gather, themeFile?]
  rcases hr : (s.sources.resolve specifier base dialect : Option Path) with _ | found
  · rfl
  · simp only [Option.map_some, Option.filter_some]
    change ExceptT.run (if (!s.settings.isThemeFile found.normalize || g.entered.any (·.same found.normalize)) = true
      then _ else if _h : waiting.any (·.same found.normalize) = true then _ else _) = _
    by_cases htheme : s.settings.isThemeFile found.normalize = true
    · by_cases hentered : g.entered.any (·.same found.normalize) = true
      · simp only [htheme, hentered, Bool.not_true, Bool.or_true, if_true]
      · by_cases hwaits : waiting.any (·.same found.normalize) = true
        · simp only [htheme, hentered, hwaits, Bool.not_true, Bool.or_false, if_true, if_false, dif_pos, Bool.false_eq_true,
            run_bindId, run_pureId]
          simp only [sheetOf, bind_assoc, ExceptT.run_mk, Themes.add]
        · simp only [htheme, hentered, hwaits, Bool.not_true, Bool.or_false, if_true, if_false, Bool.false_eq_true]
          rfl
    · simp only [htheme, Bool.not_false, Bool.true_or, if_true, Bool.false_eq_true, if_false]

/-- No import is passed over for want of the file among those that wait. -/
structure Ready (s : Session Id) (waiting : List Path) (g : Gathering) : Prop where
  normalized : ∀ p ∈ g.entered, p.IsNormalized
  waits : ∀ p : Path, p.IsNormalized → s.settings.isThemeFile p = true → p ∉ g.entered → waiting.any (·.same p) = true

theorem Ready.grow {waiting : List Path} {g g' : Gathering} (h : s.Ready waiting g) (hsub : g.entered ⊆ g'.entered)
    (hn : ∀ p ∈ g'.entered, p.IsNormalized) : s.Ready waiting g' :=
  ⟨hn, fun p hp ht he => h.waits p hp ht fun hm => he (hsub hm)⟩

theorem any_same_iff {p : Path} (hp : p.IsNormalized) {ps : List Path} (hps : ∀ q ∈ ps, q.IsNormalized) :
    ps.any (·.same p) = true ↔ p ∈ ps := by
  rw [List.any_eq_true]
  constructor
  · rintro ⟨q, hq, h⟩
    rwa [← ((hps q hq).same_iff hp).1 h]
  · exact fun h => ⟨p, h, ((hps p h).same_iff hp).2 rfl⟩

/-- Entering a file takes it from those that wait. -/
theorem Ready.enter {waiting : List Path} {g : Gathering} (h : s.Ready waiting g) {path : Path} (hp : path.IsNormalized) :
    s.Ready (path.others waiting) { g with entered := path :: g.entered } := by
  refine ⟨fun q hq => ?_, fun q hq ht he => ?_⟩
  · rcases List.mem_cons.1 hq with rfl | hq
    · exact hp
    · exact h.normalized q hq
  · rw [List.mem_cons, not_or] at he
    have hwaits := h.waits q hq ht he.2
    rw [List.any_eq_true] at hwaits ⊢
    obtain ⟨r, hr, hrq⟩ := hwaits
    refine ⟨r, List.mem_filter.2 ⟨hr, ?_⟩, hrq⟩
    rw [Bool.not_eq_true']
    by_contra hrp
    rw [Bool.not_eq_false] at hrp
    refine he.1 ((hq.same_iff hp).1 ?_)
    simp only [Path.same, beq_iff_eq] at hrp hrq ⊢
    exact hrq.symm.trans hrp

theorem themeFile?_spec {base path : Path} {dialect : Dialect} {specifier : String}
    (h : s.themeFile? base dialect specifier = .some path) : path.IsNormalized ∧ s.settings.isThemeFile path = true := by
  rw [themeFile?, Option.filter_eq_some_iff, Option.map_eq_some_iff] at h
  obtain ⟨⟨found, -, rfl⟩, htheme⟩ := h
  exact ⟨⟨found, rfl⟩, htheme⟩

/-- Where no file is missed, an import that leads to a theme file is passed over
only if the file has been entered. -/
theorem Ready.step {waiting : List Path} {g : Gathering} (hg : s.Ready waiting g) {base path : Path} {dialect : Dialect}
    {specifier : String} (hfile : s.themeFile? base dialect specifier = .some path) (rest : List String) :
    s.gathered waiting base dialect (specifier :: rest) g =
      if path ∈ g.entered then s.gathered waiting base dialect rest g
      else (do
        let sheet ← s.sheetOf path
        let inner ← s.gathered (path.others waiting) path.directory (s.settings.dialectOf path)
          (Import.specifiers sheet) { g with entered := path :: g.entered }
        let table ← s.themeTable path sheet inner.themes
        s.gathered waiting base dialect rest { inner with themes := inner.themes.add path table }) := by
  obtain ⟨hpath, htheme⟩ := themeFile?_spec hfile
  rw [gathered_cons]
  simp only [hfile]
  by_cases hentered : path ∈ g.entered
  · rw [if_pos ((any_same_iff hpath hg.normalized).2 hentered), if_pos hentered]
  · rw [if_neg (by rwa [any_same_iff hpath hg.normalized]), if_pos (hg.waits path hpath htheme hentered),
      if_neg hentered]

/-- No file is missed either once another has been entered, which then no longer
waits. -/
theorem Ready.inside {waiting : List Path} {g : Gathering} (hg : s.Ready waiting g) {base path : Path} {dialect : Dialect}
    {specifier : String} (hfile : s.themeFile? base dialect specifier = .some path) (hentered : path ∉ g.entered) :
    (path.others waiting).length < waiting.length ∧
      s.Ready (path.others waiting) { g with entered := path :: g.entered } ∧
      s.Ready waiting { g with entered := path :: g.entered } := by
  obtain ⟨hpath, htheme⟩ := themeFile?_spec hfile
  refine ⟨Path.length_others_lt (hg.waits path hpath htheme hentered), hg.enter hpath, ?_⟩
  exact hg.grow (List.subset_cons_self path g.entered) (hg.enter hpath).normalized

/-! ## The visits of a search -/

/-- From `g` to `g'`, the files are visited and what they lead to; `trail` are
the files that are open, the innermost first. -/
inductive Visits (s : Session Id) : List Path → List Path → Gathering → Gathering → Prop
  | done {trail : List Path} {g : Gathering} : Visits s trail [] g g
  | again {trail rest : List Path} {path : Path} {g g' : Gathering} (h : path ∈ g.entered) (hrest : Visits s trail rest g g') :
    Visits s trail (path :: rest) g g'
  | enter {trail rest : List Path} {path : Path} {sheet : Sheet} {table : Table} {g inner g' : Gathering}
    (h : path ∉ g.entered) (hsheet : s.sheetOf path = .ok sheet)
    (hinner : Visits s (path :: trail) (s.themeImports path sheet) { g with entered := path :: g.entered } inner)
    (htable : s.themeTable path sheet inner.themes = .ok table)
    (hrest : Visits s trail rest { inner with themes := inner.themes.add path table } g') :
    Visits s trail (path :: rest) g g'

theorem isNormalized_themeImports {file p : Path} {sheet : Sheet} (h : p ∈ s.themeImports file sheet) : p.IsNormalized := by
  rw [themeImports, List.mem_filterMap] at h
  obtain ⟨specifier, -, h⟩ := h
  exact (themeFile?_spec h).1

/-- Visits go on from where no file is missed to where none is. -/
theorem Visits.ready {waiting trail imports : List Path} {g g' : Gathering} (h : s.Visits trail imports g g')
    (hi : ∀ p ∈ imports, p.IsNormalized) (hg : s.Ready waiting g) : s.Ready waiting g' := by
  induction h with
  | done => exact hg
  | again h hrest ih => exact ih (fun p hp => hi p (List.mem_cons_of_mem _ hp)) hg
  | @enter trail rest path sheet table g inner g' h hsheet hinner htable hrest ihi ihr =>
    refine ihr (fun p hp => hi p (List.mem_cons_of_mem _ hp)) ?_
    have hinner := ihi (fun p hp => isNormalized_themeImports hp)
      (hg.grow (List.subset_cons_self path g.entered) (hg.enter (hi path List.mem_cons_self)).normalized)
    exact ⟨hinner.normalized, hinner.waits⟩

/-- Where no file is missed, the search makes visits: an induction on the number
of files that wait, and on the imports of one file. -/
theorem visits_of_gathered {waiting : List Path} {base : Path} {dialect : Dialect} {specifiers : List String}
    {g g' : Gathering} (hg : s.Ready waiting g) (h : s.gathered waiting base dialect specifiers g = .ok g')
    (trail : List Path) : s.Visits trail (specifiers.filterMap (s.themeFile? base dialect)) g g' := by
  induction hn : waiting.length using Nat.strongRecOn generalizing waiting base dialect specifiers g g' trail with
  | _ n ih =>
    induction specifiers generalizing g g' with
    | nil =>
      rw [gathered_nil] at h
      cases h
      exact .done
    | cons specifier rest ihr =>
      rw [List.filterMap_cons]
      cases hfile : s.themeFile? base dialect specifier with
      | none =>
        rw [gathered_cons] at h
        simp only [hfile] at h
        exact ihr hg h
      | some path =>
        rw [hg.step hfile] at h
        by_cases hentered : path ∈ g.entered
        · rw [if_pos hentered] at h
          exact .again hentered (ihr hg h)
        · obtain ⟨hlen, hin, hout⟩ := hg.inside hfile hentered
          rw [if_neg hentered] at h
          obtain ⟨sheet, hsheet, h⟩ := bind_ok.1 h
          obtain ⟨inner, hinner, h⟩ := bind_ok.1 h
          obtain ⟨table, htable, h⟩ := bind_ok.1 h
          have hvisits := ih _ (hn ▸ hlen) hin hinner (path :: trail) rfl
          have hready := hvisits.ready (fun p hp => isNormalized_themeImports hp) hout
          exact .enter hentered hsheet hvisits htable (ihr ⟨hready.normalized, hready.waits⟩ h)

/-- Nothing nests deeper than there are files that wait. -/
theorem gathered_eq_nested (beyond : Path → Gathering → Except Error Gathering) {depth : Nat} {waiting : List Path}
    {base : Path} {dialect : Dialect} {specifiers : List String} {g : Gathering} (hg : s.Ready waiting g)
    (hdepth : waiting.length ≤ depth) :
    s.gathered waiting base dialect specifiers g =
      s.gatherNested beyond depth (specifiers.filterMap (s.themeFile? base dialect)) g := by
  induction depth using Nat.strongRecOn generalizing waiting base dialect specifiers g with
  | _ depth ih =>
    induction specifiers generalizing g with
    | nil => rw [gathered_nil, List.filterMap_nil, gatherNested_nil]
    | cons specifier rest ihr =>
      rw [List.filterMap_cons]
      cases hfile : s.themeFile? base dialect specifier with
      | none =>
        rw [gathered_cons]
        simp only [hfile]
        exact ihr hg
      | some path =>
        rw [hg.step hfile]
        by_cases hentered : path ∈ g.entered
        · rw [if_pos hentered, gatherNested_again hentered]
          exact ihr hg
        · obtain ⟨hlen, hin, hout⟩ := hg.inside hfile hentered
          obtain ⟨depth, rfl⟩ : ∃ d, depth = d + 1 := ⟨depth - 1, by omega⟩
          rw [if_neg hentered, gatherNested_enter hentered]
          refine bind_congr fun sheet => ?_
          rw [themeImports, ← ih depth (Nat.lt_succ_self _) hin (by omega)]
          cases hinner : s.gathered (path.others waiting) path.directory (s.settings.dialectOf path)
            (Import.specifiers sheet) { g with entered := path :: g.entered } with
          | error e => rfl
          | ok inner =>
            have hready := (visits_of_gathered hin hinner []).ready (fun p hp => isNormalized_themeImports hp) hout
            change s.themeTable path sheet inner.themes >>= _ = s.themeTable path sheet inner.themes >>= _
            exact bind_congr fun table => ihr ⟨hready.normalized, hready.waits⟩

/-- A file that has been visited, and the files that were open then, the
innermost first. -/
structure Visit where
  file : Path
  trail : List Path

/-- The visit of `p` ends before that of `q`. -/
def Ahead (visits : List Visit) (p q : Path) : Prop := [p, q].Sublist (visits.map (·.file))

theorem Ahead.left {visits : List Visit} {p q : Path} (h : Ahead visits p q) (more : List Visit) :
    Ahead (visits ++ more) p q := by
  rw [Ahead, List.map_append]
  exact h.trans (List.sublist_append_left _ _)

theorem Ahead.right {visits : List Visit} {p q : Path} (h : Ahead visits p q) (more : List Visit) :
    Ahead (more ++ visits) p q := by
  rw [Ahead, List.map_append]
  exact h.trans (List.sublist_append_right _ _)

theorem ahead_append {before after : List Visit} {p q : Path} (hp : p ∈ before.map (·.file)) (hq : q ∈ after.map (·.file)) :
    Ahead (before ++ after) p q := by
  rw [Ahead, List.map_append]
  exact (List.singleton_sublist.2 hp).append (List.singleton_sublist.2 hq)

/-- The file is one of the imports, if no file is open; or it is an import of
the innermost open file, which was itself visited with the others open. -/
def Led (s : Session Id) (imports : List Path) (visits : List Visit) (file : Path) (trail : List Path) :
    List Path → Prop
  | [] => file ∈ imports
  | p :: opened => ⟨p, opened ++ trail⟩ ∈ visits ∧ ∃ sheet, s.sheetOf p = .ok sheet ∧ file ∈ s.themeImports p sheet

theorem Led.mono {imports imports' trail opened : List Path} {visits visits' : List Visit} {file : Path}
    (h : s.Led imports visits file trail opened) (hi : imports ⊆ imports') (hv : visits ⊆ visits') :
    s.Led imports' visits' file trail opened := by
  cases opened with
  | nil => exact hi h
  | cons p opened => exact ⟨hv h.1, h.2⟩

/-- The visits that lead from `g` to `g'`, in the order in which they end. Each
file is visited once. The files that are open when it is visited, those in
`trail` aside, import each other down to it and end after it. Before it ends,
whatever it imports has been entered: before this search, or by a visit that
has ended or is still open. -/
structure Ordered (s : Session Id) (trail imports : List Path) (g g' : Gathering) (visits : List Visit) : Prop where
  files : g'.themes.files = g.themes.files ++ visits.map (·.file)
  entered : ∀ p, p ∈ g'.entered ↔ p ∈ g.entered ∨ p ∈ visits.map (·.file)
  fresh : ∀ v ∈ visits, v.file ∉ g.entered
  nodup : (visits.map (·.file)).Nodup
  covers : ∀ p ∈ imports, p ∈ g'.entered
  opened : ∀ v ∈ visits, ∃ opened, v.trail = opened ++ trail ∧ (∀ p ∈ opened, Ahead visits v.file p) ∧
    s.Led imports visits v.file trail opened
  imports : ∀ v ∈ visits, ∃ sheet, s.sheetOf v.file = .ok sheet ∧ ∀ p ∈ s.themeImports v.file sheet,
    p ∈ g.entered ∨ p = v.file ∨ p ∈ v.trail ∨ Ahead visits p v.file

theorem Ordered.enter {trail rest : List Path} {path : Path} {sheet : Sheet} {table : Table} {g inner g' : Gathering}
    {before after : List Visit} (hpath : path ∉ g.entered) (hsheet : s.sheetOf path = .ok sheet)
    (hbefore : s.Ordered (path :: trail) (s.themeImports path sheet) { g with entered := path :: g.entered } inner before)
    (hafter : s.Ordered trail rest { inner with themes := inner.themes.add path table } g' after) :
    s.Ordered trail (path :: rest) g g' (before ++ ⟨path, trail⟩ :: after) := by
  have hentered (p : Path) : p ∈ inner.entered ↔ p ∈ g.entered ∨ p = path ∨ p ∈ before.map (·.file) := by
    rw [hbefore.entered, List.mem_cons]
    grind
  have hsub : (⟨path, trail⟩ :: after : List Visit) ⊆ before ++ ⟨path, trail⟩ :: after := List.subset_append_right _ _
  constructor
  case files =>
    rw [hafter.files, Themes.add, hbefore.files]
    simp
  case entered =>
    intro p
    rw [hafter.entered, hentered]
    simp only [List.map_append, List.map_cons, List.mem_append, List.mem_cons]
    grind
  case fresh =>
    intro v hv
    rcases List.mem_append.1 hv with hv | hv
    · exact fun h => hbefore.fresh v hv (List.mem_cons_of_mem _ h)
    · rcases List.mem_cons.1 hv with rfl | hv
      · exact hpath
      · exact fun h => hafter.fresh v hv ((hentered _).2 (.inl h))
  case nodup =>
    have hout {p : Path} (hp : p ∈ after.map (·.file)) : p ∉ inner.entered := by
      obtain ⟨v, hv, rfl⟩ := List.mem_map.1 hp
      exact hafter.fresh v hv
    rw [List.map_append, List.map_cons, List.nodup_middle, List.nodup_cons, List.nodup_append]
    refine ⟨?_, hbefore.nodup, hafter.nodup, ?_⟩
    · rw [List.mem_append, not_or]
      refine ⟨fun h => ?_, fun h => hout h ((hentered _).2 (.inr (.inl rfl)))⟩
      obtain ⟨v, hv, rfl⟩ := List.mem_map.1 h
      exact hbefore.fresh v hv List.mem_cons_self
    · rintro p hp q hq rfl
      exact hout hq ((hentered _).2 (.inr (.inr hp)))
  case covers =>
    intro p hp
    rcases List.mem_cons.1 hp with rfl | hp
    · exact (hafter.entered _).2 (.inl ((hentered _).2 (.inr (.inl rfl))))
    · exact hafter.covers p hp
  case opened =>
    intro v hv
    rcases List.mem_append.1 hv with hv | hv
    · obtain ⟨opened, htrail, hahead, hled⟩ := hbefore.opened v hv
      have hfile : v.file ∈ before.map (·.file) := List.mem_map_of_mem hv
      refine ⟨opened ++ [path], by simp [htrail], fun p hp => ?_, ?_⟩
      · rcases List.mem_append.1 hp with hp | hp
        · exact (hahead p hp).left _
        · rw [List.mem_singleton.1 hp]
          exact ahead_append hfile (by simp)
      · cases opened with
        | nil => exact ⟨hsub List.mem_cons_self, sheet, hsheet, hled⟩
        | cons p opened =>
          have htrail' : (opened ++ [path]) ++ trail = opened ++ path :: trail := by simp
          exact ⟨List.mem_append_left _ (htrail' ▸ hled.1), hled.2⟩
    · rcases List.mem_cons.1 hv with rfl | hv
      · exact ⟨[], rfl, fun _ h => (nomatch h), List.mem_cons_self⟩
      · obtain ⟨opened, htrail, hahead, hled⟩ := hafter.opened v hv
        refine ⟨opened, htrail, fun p hp => ?_, hled.mono (List.subset_cons_self _ _) ?_⟩
        · exact ((hahead p hp).right [⟨path, trail⟩]).right before
        · exact List.Subset.trans (List.subset_cons_self _ _) hsub
  case imports =>
    intro v hv
    rcases List.mem_append.1 hv with hv | hv
    · obtain ⟨sheet, hs, himports⟩ := hbefore.imports v hv
      refine ⟨sheet, hs, fun p hp => ?_⟩
      rcases himports p hp with h | h | h | h
      · rcases List.mem_cons.1 h with h | h
        · obtain ⟨opened, htrail, -⟩ := hbefore.opened v hv
          exact .inr (.inr (.inl (by simp [htrail, h])))
        · exact .inl h
      · exact .inr (.inl h)
      · exact .inr (.inr (.inl h))
      · exact .inr (.inr (.inr (h.left _)))
    · rcases List.mem_cons.1 hv with rfl | hv
      · refine ⟨sheet, hsheet, fun p hp => ?_⟩
        rcases (hentered p).1 (hbefore.covers p hp) with h | h | h
        · exact .inl h
        · exact .inr (.inl h)
        · exact .inr (.inr (.inr (ahead_append h (by simp))))
      · obtain ⟨sheet, hs, himports⟩ := hafter.imports v hv
        have hfile : v.file ∈ after.map (·.file) := List.mem_map_of_mem hv
        refine ⟨sheet, hs, fun p hp => ?_⟩
        rcases himports p hp with h | h | h | h
        · rcases (hentered p).1 h with h | rfl | h
          · exact .inl h
          · have hp : p ∈ [(⟨p, trail⟩ : Visit)].map (·.file) := List.mem_singleton.2 rfl
            exact .inr (.inr (.inr ((ahead_append hp hfile).right before)))
          · exact .inr (.inr (.inr (ahead_append h (List.mem_cons_of_mem _ hfile))))
        · exact .inr (.inl h)
        · exact .inr (.inr (.inl h))
        · exact .inr (.inr (.inr ((h.right [⟨path, trail⟩]).right before)))

theorem Visits.ordered {trail imports : List Path} {g g' : Gathering} (h : s.Visits trail imports g g') :
    ∃ visits, s.Ordered trail imports g g' visits := by
  induction h with
  | done => exact ⟨[], ⟨by simp, by simp, by simp, by simp, by simp, by simp, by simp⟩⟩
  | @again trail rest path g g' h hrest ih =>
    obtain ⟨visits, ih⟩ := ih
    refine ⟨visits, { ih with covers := fun p hp => ?_, opened := fun v hv => ?_ }⟩
    · rcases List.mem_cons.1 hp with rfl | hp
      · exact (ih.entered p).2 (.inl h)
      · exact ih.covers p hp
    · obtain ⟨opened, htrail, hahead, hled⟩ := ih.opened v hv
      exact ⟨opened, htrail, hahead, hled.mono (List.subset_cons_self _ _) fun _ h => h⟩
  | enter h hsheet hinner htable hrest ihi ihr =>
    obtain ⟨before, hbefore⟩ := ihi
    obtain ⟨after, hafter⟩ := ihr
    exact ⟨_, hbefore.enter h hsheet hafter⟩

/-! ## What is gathered -/

/-- A theme file to which theme files lead from the imports of the sheet,
without the sheet's own file among them. -/
inductive Reaches (s : Session Id) (sheet : Sheet) (file : Path) : Path → Prop
  | direct {p : Path} (h : p ∈ s.themeImports file sheet) (hne : p ≠ file.normalize) : Reaches s sheet file p
  | through {p q : Path} {imported : Sheet} (hp : Reaches s sheet file p) (hsheet : s.sheetOf p = .ok imported)
    (h : q ∈ s.themeImports p imported) (hne : q ≠ file.normalize) : Reaches s sheet file q

/-- Each table is that of the file in its place, resolved against those before
it. -/
def Tabled (s : Session Id) (t : Themes) : Prop :=
  t.imports.length = t.files.length ∧
    ∀ (i : Nat) (path : Path), t.files[i]? = .some path → ∃ sheet table, s.sheetOf path = .ok sheet ∧
      t.imports[i]? = .some table ∧ s.themeTable path sheet ⟨t.imports.take i, t.files.take i⟩ = .ok table

theorem Tabled.add {t : Themes} (h : s.Tabled t) {path : Path} {sheet : Sheet} {table : Table}
    (hsheet : s.sheetOf path = .ok sheet) (htable : s.themeTable path sheet t = .ok table) : s.Tabled (t.add path table) := by
  obtain ⟨hlen, htables⟩ := h
  refine ⟨by simp [Themes.add, hlen], fun i p hp => ?_⟩
  rcases Nat.lt_trichotomy i t.files.length with hi | hi | hi
  · rw [Themes.add, List.getElem?_append_left hi] at hp
    obtain ⟨sheet', table', hs, ht, hresolved⟩ := htables i p hp
    refine ⟨sheet', table', hs, ?_, ?_⟩
    · rwa [Themes.add, List.getElem?_append_left (hlen ▸ hi)]
    · rwa [Themes.add, List.take_append_of_le_length (Nat.le_of_lt hi),
        List.take_append_of_le_length (hlen ▸ Nat.le_of_lt hi)]
  · subst hi
    rw [Themes.add, List.getElem?_append_right (Nat.le_refl _), Nat.sub_self] at hp
    cases hp
    refine ⟨sheet, table, hsheet, ?_, ?_⟩
    · rw [Themes.add, ← hlen, List.getElem?_append_right (Nat.le_refl _), Nat.sub_self]
      rfl
    · rw [Themes.add, List.take_left, ← hlen, List.take_left]
      exact htable
  · rw [Themes.add, List.getElem?_eq_none (by rw [List.length_append, List.length_singleton]; omega)] at hp
    cases hp

theorem Visits.tabled {trail imports : List Path} {g g' : Gathering} (h : s.Visits trail imports g g')
    (hg : s.Tabled g.themes) : s.Tabled g'.themes := by
  induction h with
  | done => exact hg
  | again h hrest ih => exact ih hg
  | enter h hsheet hinner htable hrest ihi ihr => exact ihr ((ihi hg).add hsheet htable)

theorem Visits.reaches {sheet : Sheet} {file : Path} {trail imports : List Path} {g g' : Gathering}
    (h : s.Visits trail imports g g') (hfile : file.normalize ∈ g.entered)
    (hi : ∀ p ∈ imports, p ≠ file.normalize → s.Reaches sheet file p)
    (hg : ∀ p ∈ g.themes.files, s.Reaches sheet file p) : ∀ p ∈ g'.themes.files, s.Reaches sheet file p := by
  induction h with
  | done => exact hg
  | again h hrest ih => exact ih hfile (fun p hp => hi p (List.mem_cons_of_mem _ hp)) hg
  | @enter trail rest path imported table g inner g' h hsheet hinner htable hrest ihi ihr =>
    have hpath : s.Reaches sheet file path := hi path List.mem_cons_self fun he => h (he ▸ hfile)
    have hfiles := ihi (List.mem_cons_of_mem _ hfile) (fun p hp hne => .through hpath hsheet hp hne) hg
    obtain ⟨visits, hvisits⟩ := hinner.ordered
    refine ihr ((hvisits.entered _).2 (.inl (List.mem_cons_of_mem _ hfile)))
      (fun p hp => hi p (List.mem_cons_of_mem _ hp)) fun p hp => ?_
    rcases List.mem_append.1 hp with hp | hp
    · exact hfiles p hp
    · rwa [List.mem_singleton.1 hp]

/-- What gathering the theme of a file comes to: the theme files that its
imports lead to, each once, the file itself not among them, and the table of
each. A theme file stands after what it imports, unless that is the file
itself, or was open when it was visited. For each variable the last file that
has it counts. -/
structure Gathered (s : Session Id) (sheet : Sheet) (file : Path) (t : Themes) : Prop where
  nodup : t.files.Nodup
  distinct : t.files.Pairwise fun p q => p.same q = false
  others : ∀ p ∈ t.files, p.same file.normalize = false
  mem_iff : ∀ p, p ∈ t.files ↔ s.Reaches sheet file p
  tabled : s.Tabled t
  order : ∃ visits : List Visit, t.files = visits.map (·.file) ∧ ∀ v ∈ visits,
    s.Led (s.themeImports file sheet) visits v.file [] v.trail ∧ (∀ p ∈ v.trail, [v.file, p].Sublist t.files) ∧
      ∃ imported, s.sheetOf v.file = .ok imported ∧ ∀ p ∈ s.themeImports v.file imported,
        p = file.normalize ∨ p = v.file ∨ p ∈ v.trail ∨ [p, v.file].Sublist t.files
  theme : ∀ ident, t.theme.get? ident = Table.findLast? t.imports ident

theorem Reaches.isNormalized {sheet : Sheet} {file p : Path} (h : s.Reaches sheet file p) : p.IsNormalized := by
  cases h with
  | direct h => exact isNormalized_themeImports h
  | through _ _ h => exact isNormalized_themeImports h

theorem Reaches.ne_file {sheet : Sheet} {file p : Path} (h : s.Reaches sheet file p) : p ≠ file.normalize := by
  cases h with
  | direct _ hne => exact hne
  | through _ _ _ hne => exact hne

/-- What is visited from the imports of a file are the theme files that they
lead to. -/
theorem Visits.mem_files_iff {sheet : Sheet} {file : Path} {g : Gathering}
    (h : s.Visits [] (s.themeImports file sheet) { entered := [file.normalize] } g) (p : Path) :
    p ∈ g.themes.files ↔ s.Reaches sheet file p := by
  obtain ⟨visits, hvisits⟩ := h.ordered
  have hfiles : g.themes.files = visits.map (·.file) := hvisits.files
  have hentered {q : Path} (hq : q ∈ g.entered) (hne : q ≠ file.normalize) : q ∈ g.themes.files := by
    rw [hfiles]
    exact ((hvisits.entered q).1 hq).resolve_left fun h => hne (List.mem_singleton.1 h)
  constructor
  · exact h.reaches (List.mem_singleton.2 rfl) (fun q hq hne => .direct hq hne) (fun q hq => nomatch hq) p
  · intro hp
    induction hp with
    | direct hp hne => exact hentered (hvisits.covers _ hp) hne
    | @through p q imported hp hsheet hq hne ih =>
      rw [hfiles, List.mem_map] at ih
      obtain ⟨v, hv, rfl⟩ := ih
      obtain ⟨sheet', hs, himports⟩ := hvisits.imports v hv
      cases hs.symm.trans hsheet
      rcases himports q hq with h | rfl | h | h
      · exact absurd (List.mem_singleton.1 h) hne
      · rw [hfiles]
        exact List.mem_map_of_mem hv
      · obtain ⟨opened, htrail, hahead, -⟩ := hvisits.opened v hv
        rw [htrail, List.append_nil] at h
        rw [hfiles]
        exact (hahead q h).subset (by simp)
      · rw [hfiles]
        exact h.subset (by simp)

/-- What a search from the imports of a file visits, is gathered. -/
theorem Visits.gathered {sheet : Sheet} {file : Path} {g : Gathering}
    (h : s.Visits [] (s.themeImports file sheet) { entered := [file.normalize] } g) : s.Gathered sheet file g.themes := by
  have hmem := h.mem_files_iff
  have htabled : s.Tabled g.themes := h.tabled ⟨rfl, fun i p hp => by simp at hp⟩
  obtain ⟨visits, hvisits⟩ := h.ordered
  have hfiles : g.themes.files = visits.map (·.file) := hvisits.files
  have hnodup : g.themes.files.Nodup := hfiles ▸ hvisits.nodup
  have hdistinct {p q : Path} (hp : p.IsNormalized) (hq : q.IsNormalized) (hne : p ≠ q) : p.same q = false := by
    rw [Bool.eq_false_iff]
    exact fun h => hne ((hp.same_iff hq).1 h)
  refine ⟨hnodup, ?_, fun p hp => ?_, hmem, htabled, ⟨visits, hfiles, fun v hv => ⟨?_, ?_, ?_⟩⟩,
    Table.get?_merged _⟩
  · exact hnodup.imp_of_mem fun hp hq hne => hdistinct ((hmem _).1 hp).isNormalized ((hmem _).1 hq).isNormalized hne
  · exact hdistinct ((hmem p).1 hp).isNormalized ⟨file, rfl⟩ ((hmem p).1 hp).ne_file
  · obtain ⟨opened, htrail, -, hled⟩ := hvisits.opened v hv
    rwa [htrail, List.append_nil]
  · obtain ⟨opened, htrail, hahead, -⟩ := hvisits.opened v hv
    rw [htrail, List.append_nil, hfiles]
    exact hahead
  · obtain ⟨imported, hs, himports⟩ := hvisits.imports v hv
    refine ⟨imported, hs, fun p hp => ?_⟩
    rw [hfiles]
    exact (himports p hp).imp_left List.mem_singleton.1

/-- Gathering the theme of a file ends: no more files are open at once than
there are theme files, whatever `beyond` would do with more. Where it succeeds,
it is a depth-first search. -/
theorem themes_gathered (s : Session Id) (sheet : Sheet) (file : Path) :
    (∀ beyond, s.themesNested beyond s.settings.themeFiles.length sheet file = (s.themes sheet file).run) ∧
      ∀ t, (s.themes sheet file).run = .ok t → s.Gathered sheet file t := by
  have hready : s.Ready s.settings.themeFiles { entered := [file.normalize] } := by
    refine ⟨fun p hp => ⟨file, List.mem_singleton.1 hp⟩, fun p _ htheme _ => htheme⟩
  have hthemes : (s.themes sheet file).run = (s.gathered s.settings.themeFiles file.directory (s.settings.dialectOf file)
      (Import.specifiers sheet) { entered := [file.normalize] }).map (·.themes) := by
    rw [themes, run_bindId, gathered]
    cases (s.gather s.settings.themeFiles file.directory (s.settings.dialectOf file) (Import.specifiers sheet)
      { entered := [file.normalize] }).run with
    | error e => rfl
    | ok g => rfl
  refine ⟨fun beyond => ?_, fun t ht => ?_⟩
  · rw [hthemes, gathered_eq_nested beyond hready (Nat.le_refl _)]
    rfl
  · rw [hthemes, map_ok] at ht
    obtain ⟨g, hg, rfl⟩ := ht
    exact (visits_of_gathered hready hg []).gathered

/-- Two theme files that import each other, and a file that imports both and
that one of them imports. -/
def ring : Shelf :=
  ((({} : Shelf).insert ⟨"/a.css"⟩ "@import 'b.css', 'c.css';").insert ⟨"/b.css"⟩
    "@import 'c.css'; :root\x7b--x:red\x7d").insert ⟨"/c.css"⟩ "@import 'b.css'; @import 'a.css'; :root\x7b--x:blue\x7d"

def circular : Session Id :=
  .new { themeFiles := [⟨"/a.css"⟩, ⟨"/b.css"⟩, ⟨"/lib/../c.css"⟩] } (ring.sources ring)

def ringSheet : Sheet := { nodes := [.statement "import" "'b.css', 'c.css'" "" " " "" true] }

/-- The file that is visited second is done first, so that it is overridden. -/
theorem themes_gathered_ring :
    (∀ beyond, circular.themesNested beyond 3 ringSheet ⟨"/a.css"⟩ = (circular.themes ringSheet ⟨"/a.css"⟩).run) ∧
      ∃ t, (circular.themes ringSheet ⟨"/a.css"⟩).run = .ok t ∧ t.files = [⟨"/c.css"⟩, ⟨"/b.css"⟩] ∧
        t.imports.map (fun table => table.records.map fun v => (v.name, v.resolved)) = [[("--x", "blue")], [("--x", "red")]] ∧
        circular.Gathered ringSheet ⟨"/a.css"⟩ t := by
  obtain ⟨hends, hgathered⟩ := themes_gathered circular ringSheet ⟨"/a.css"⟩
  have hok : (circular.themesNested (fun _ g => .ok g) 3 ringSheet ⟨"/a.css"⟩).toOption.map (fun t =>
      (t.files, t.imports.map fun table => table.records.map fun v => (v.name, v.resolved))) =
        .some ([⟨"/c.css"⟩, ⟨"/b.css"⟩], [[("--x", "blue")], [("--x", "red")]]) := by
    decide +kernel
  have hrun : circular.themesNested (fun _ g => .ok g) 3 ringSheet ⟨"/a.css"⟩ =
      (circular.themes ringSheet ⟨"/a.css"⟩).run := hends _
  rw [hrun] at hok
  rcases ht : ((circular.themes ringSheet ⟨"/a.css"⟩).run : Except Error Themes) with e | t
  · rw [ht] at hok
    cases hok
  · rw [ht] at hok
    simp only [Except.toOption, Option.map_some, Option.some.injEq, Prod.mk.injEq] at hok
    exact ⟨fun beyond => (hends beyond).trans ht, t, rfl, hok.1, hok.2, hgathered t ht⟩

end Session

end ThemeVars
