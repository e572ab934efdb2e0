/-
One normal form for each place. `IsFolded` is the shape of what normalizing
gives: a pair of dots is left only at the front of a relative path. Such a path
is its own normal form, and a path may be put in normal form before another is
joined to it (`normalize_join`). So files are told apart by their normal forms
wherever they are looked up (`normalize_canonical`).
-/
import ThemeVars.Proofs.Path.Relocation
import ThemeVars.Session

namespace ThemeVars

namespace Path

/-! ## Folded lists of components -/

/-- Names from the root on, or names behind pairs of dots. -/
def IsFolded (cs : List Component) : Prop :=
  Rooted cs ∨ ∃ (n : Nat) (names : List String), (∀ s ∈ names, (Component.name s).IsPlain) ∧
    cs = List.replicate n .up ++ names.map .name

theorem isFolded_nil : IsFolded [] := .inr ⟨0, [], fun _ h => (nomatch h), rfl⟩

theorem isFolded_normalStep {out : List Component} {c : Component} (h : IsFolded out) (hc : c.IsPlain) :
    IsFolded (normalStep out c) := by
  rcases h with h | ⟨n, names, hnames, rfl⟩
  · exact .inl (rooted_normalStep h hc)
  right
  cases c with
  | root => cases hc
  | here => cases hc
  | name s =>
    refine ⟨n, names ++ [s], ?_, by simp [normalStep]⟩
    intro t ht
    rcases List.mem_append.1 ht with ht | ht
    · exact hnames t ht
    · rwa [List.mem_singleton.1 ht]
  | up =>
    rcases List.eq_nil_or_concat names with rfl | ⟨front, s, rfl⟩
    · -- nothing can be taken away, so that the run of dots grows
      refine ⟨n + 1, [], hnames, ?_⟩
      cases n with
      | zero => rfl
      | succ n => simp [normalStep, List.getLast?_replicate, List.replicate_succ']
    · refine ⟨n, front, fun t ht => hnames t (by simp [ht]), ?_⟩
      rw [List.concat_eq_append, List.map_append, List.map_singleton, ← List.append_assoc, normalStep,
        List.getLast?_concat, List.dropLast_concat]

/-- Normalizing leaves no dot, and pairs of dots only at the front. -/
theorem isFolded_normalize (p : Path) : IsFolded p.normalize.components := by
  by_cases hp : p.isAbsolute = true
  · exact .inl (rooted_normalize hp)
  · rw [components_normalize, foldl_components (Bool.eq_false_iff.2 hp)]
    exact List.foldlRecOn _ _ isFolded_nil fun out hout c hc => isFolded_normalStep hout (steps_isPlain hc)

theorem foldl_ups (m n : Nat) :
    (List.replicate n Component.up).foldl normalStep (List.replicate m .up) = List.replicate (m + n) .up := by
  induction n generalizing m with
  | zero => rfl
  | succ n ih =>
    have hstep : normalStep (List.replicate m Component.up) .up = List.replicate (m + 1) .up := by
      cases m with
      | zero => rfl
      | succ m => simp [normalStep, List.getLast?_replicate, List.replicate_succ']
    rw [List.replicate_succ, List.foldl_cons, hstep, ih, Nat.add_right_comm, Nat.add_assoc]

/-- The output of the steps so far says all about them: following it again
leads to it. -/
theorem IsFolded.foldl_eq {cs : List Component} (h : IsFolded cs) : cs.foldl normalStep [] = cs := by
  rcases h with ⟨names, -, rfl⟩ | ⟨n, names, -, rfl⟩
  · exact foldl_descend [.root] names
  · have hups : (List.replicate n Component.up).foldl normalStep [] = List.replicate n .up := by
      simpa using foldl_ups 0 n
    rw [List.foldl_append, hups, foldl_descend]

/-! ## Normal forms -/

theorem normalize_congr {p q : Path} (h : p.normalize.components = q.normalize.components) : p.normalize = q.normalize :=
  (IsNormalized.same_iff ⟨p, rfl⟩ ⟨q, rfl⟩).1 (beq_iff_eq.2 h)

@[simp] theorem normalize_normalize (p : Path) : p.normalize.normalize = p.normalize :=
  normalize_congr (by rw [components_normalize, (isFolded_normalize p).foldl_eq])

/-- Where a path leads from another is told by the normal form of that. -/
theorem normalize_join (p q : Path) : (p.join q).normalize = (p.normalize.join q).normalize := by
  by_cases hq : q.isAbsolute = true
  · simp [join, hq]
  · rw [Bool.not_eq_true] at hq
    apply normalize_congr
    rw [components_normalize_join p hq, components_normalize_join p.normalize hq, normalize_normalize]

theorem same_normalize_iff {p q : Path} : p.normalize.same q.normalize = true ↔ p.normalize = q.normalize :=
  IsNormalized.same_iff ⟨p, rfl⟩ ⟨q, rfl⟩

/-- Among the normal forms of some files is that of a file iff one of them has it. -/
theorem any_same_normalize (p : Path) (ps : List Path) :
    (ps.map normalize).any (·.same p.normalize) = true ↔ ∃ q ∈ ps, q.normalize = p.normalize := by
  simp [same_normalize_iff]

end Path

/-! ## Where files are looked up -/

theorem Import.candidates_normalize (specifier : String) (base : Path) (dialect : Dialect) :
    candidates specifier base dialect = candidates specifier base.normalize dialect := by
  have hjoined := Path.normalize_join base ⟨specifier⟩
  unfold candidates
  generalize (base.join ⟨specifier⟩).normalize = joined at *
  rw [hjoined]

/-- What was put on a shelf last is loaded by every path that leads to it. -/
theorem Shelf.load_insert (s : Shelf) (p q : Path) (text : String) :
    (s.insert p text).load q = if p.normalize = q.normalize then .ok text else s.load q := by
  rw [load, insert, find?, List.find?_cons]
  by_cases h : p.normalize = q.normalize
  · rw [if_pos h, Path.same_normalize_iff.2 h]
    rfl
  · rw [if_neg h, Bool.eq_false_iff.2 (mt Path.same_normalize_iff.1 h)]
    rfl

namespace Session

variable {m : Type → Type}

theorem isThemeFile_iff (settings : Settings) (sources : Sources m) (file : Path) :
    (Session.new settings sources).isThemeFile file = true ↔ ∃ p ∈ settings.themeFiles, p.normalize = file.normalize :=
  Path.any_same_normalize file settings.themeFiles

/-- The search from a directory goes by its normal form. -/
theorem gather_normalize [Monad m] (s : Session m) (waiting : List Path) (base : Path) (dialect : Dialect)
    (specifiers : List String) (g : Gathering) :
    s.gather waiting base dialect specifiers g = s.gather waiting base.normalize dialect specifiers g := by
  induction specifiers generalizing g with
  | nil => rw [gather, gather]
  | cons specifier rest ih =>
    have hresolve : s.sources.resolve specifier base dialect = s.sources.resolve specifier base.normalize dialect := by
      rw [Sources.resolve, Sources.resolve, ← Import.candidates_normalize]
    rw [gather, gather, hresolve]
    simp only [ih]

end Session

/-- Normalizing folds a path, component by component and once and for all, and may
be done before another is joined to it. So theme files, the files that were entered, what is on a
shelf and what an import may mean do not depend on how a path is spelled. -/
theorem Path.normalize_canonical (a b : Path) :
    a.normalize.components = a.components.foldl normalStep [] ∧ IsFolded a.normalize.components ∧
      a.normalize.normalize = a.normalize ∧
      (a.join b).normalize = (a.normalize.join b).normalize ∧
      (∀ entered : List Path,
        (entered.map normalize).any (·.same a.normalize) = true ↔ ∃ p ∈ entered, p.normalize = a.normalize) ∧
      (∀ (m : Type → Type) (settings : Settings) (sources : Sources m),
        (Session.new settings sources).isThemeFile a = true ↔ ∃ p ∈ settings.themeFiles, p.normalize = a.normalize) ∧
      (∀ (shelf : Shelf) (text : String),
        (shelf.insert a text).load b = if a.normalize = b.normalize then .ok text else shelf.load b) ∧
      (∀ (specifier : String) (dialect : Dialect),
        Import.candidates specifier a dialect = Import.candidates specifier a.normalize dialect) ∧
      ∀ (m : Type → Type) [Monad m] (s : Session m) (waiting : List Path) (dialect : Dialect) (specifiers : List String)
        (g : Gathering),
        s.gather waiting a dialect specifiers g = s.gather waiting a.normalize dialect specifiers g :=
  ⟨components_normalize a, isFolded_normalize a, normalize_normalize a, normalize_join a b, any_same_normalize a,
    fun _ settings sources => Session.isThemeFile_iff settings sources a, fun shelf => shelf.load_insert a b,
    fun specifier => Import.candidates_normalize specifier a,
    fun _ _ s waiting dialect => s.gather_normalize waiting a dialect⟩

example : ((Path.mk "a/..").join ⟨"./b"⟩).normalize = ⟨"b"⟩ := by decide +kernel

end ThemeVars
