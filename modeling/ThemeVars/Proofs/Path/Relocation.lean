/-
Where a resource leads. The way from one directory to a file climbs out of the
directory and then goes down by names; it is written with a slash between its
steps. `relocate?_leads`: a resource that is relocated leads from the one file
to where it led from the other.
-/
import Mathlib.Data.List.Induction
import Mathlib.Tactic.Common
import ThemeVars.Proofs.Path.Normal
import ThemeVars.Proofs.Text.Trim
import ThemeVars.Path.Relocation

namespace ThemeVars.Path

/-! ## Joining -/

theorem segments_ne_nil (s : List Char) : segments s ≠ [] := by
  cases s with
  | nil => exact List.cons_ne_nil _ _
  | cons c cs =>
    simp only [segments]
    split
    · exact List.cons_ne_nil _ _
    · intro h
      exact segments_ne_nil cs (List.modifyHead_eq_nil_iff.1 h)

theorem segments_slash (a b : List Char) : segments (a ++ '/' :: b) = segments a ++ segments b := by
  induction a with
  | nil => rfl
  | cons c cs ih =>
    simp only [List.cons_append, segments, ih]
    split
    · rfl
    · obtain ⟨first, rest, hs⟩ := List.exists_cons_of_ne_nil (segments_ne_nil cs)
      rw [hs]
      rfl

theorem steps_slash (a b : List Char) : steps (a ++ '/' :: b) = steps a ++ steps b := by
  simp only [steps, segments_slash, List.filter_append, List.map_append]

theorem isAbsolute_iff {p : Path} : p.isAbsolute = true ↔ ∃ rest, p.text.toList = '/' :: rest := by
  rw [isAbsolute, beq_iff_eq, List.head?_eq_some_iff]

theorem components_absolute {p : Path} {rest : List Char} (h : p.text.toList = '/' :: rest) :
    p.components = .root :: steps rest := by
  rw [components, h]
  rfl

/-- Behind a slash, or at the front, the steps of a text do not hang on what
stands before it. -/
theorem steps_append {a : List Char} (h : a.getLast?.all (· == '/') = true) (b : List Char) :
    steps (a ++ b) = steps a ++ steps b := by
  rcases List.eq_nil_or_concat a with rfl | ⟨front, c, rfl⟩
  · rfl
  · rw [List.concat_eq_append] at h ⊢
    obtain rfl : c = '/' := by simpa using h
    rw [List.append_assoc, List.singleton_append, steps_slash, steps_slash]
    simp [steps, segments, isIdle]

/-- What a path starts with stays where more is written behind it: after a
slash, or behind one. -/
theorem splitStart_append {s : List Char} (hs : s ≠ []) (more : List Char)
    (h : s.getLast? = .some '/' ∨ more.head? = .some '/') :
    splitStart (s ++ more) = ((splitStart s).1, (splitStart s).2.1, (splitStart s).2.2 ++ more) := by
  rcases s with _ | ⟨c, _ | ⟨d, s⟩⟩
  · exact absurd rfl hs
  · by_cases hslash : c = '/'
    · subst hslash
      rfl
    by_cases hdot : c = '.'
    · subst hdot
      obtain ⟨rest, rfl⟩ := List.head?_eq_some_iff.1 (h.resolve_left (by simp))
      rfl
    · simp [splitStart, hslash, hdot]
  · by_cases hslash : c = '/'
    · subst hslash
      rfl
    by_cases hdot : c = '.'
    · subst hdot
      by_cases hd : d = '/'
      · subst hd
        rfl
      · simp [splitStart, hd]
    · simp [splitStart, hslash, hdot]

theorem getLast?_body {s : List Char} (h : s.getLast? = .some '/') :
    (splitStart s).2.2.getLast?.all (· == '/') = true := by
  unfold splitStart
  split
  · rename_i rest
    cases rest with
    | nil => rfl
    | cons c rest =>
      rw [List.getLast?_cons_cons] at h
      rw [h]
      rfl
  · rfl
  · rw [List.getLast?_cons_cons] at h
    rw [h]
    rfl
  · rw [h]
    rfl

/-- What is joined to a path goes on where that ends. -/
theorem components_join {p q : Path} (hp : p.text.toList ≠ []) (hq : q.isAbsolute = false) :
    (p.join q).components = p.components ++ steps q.text.toList := by
  have hne : p.text.isEmpty = false := by
    rw [Bool.eq_false_iff]
    exact fun h => hp (by rw [String.isEmpty_iff.1 h]; rfl)
  rw [join, hq, hne]
  simp only [Bool.or_self, Bool.false_eq_true, if_false, beq_iff_eq]
  split
  · rename_i hlast
    simp only [components, String.toList_append, splitStart_append hp _ (.inl hlast), steps_append (getLast?_body hlast),
      List.append_assoc]
  · have htext : (p.text ++ "/" ++ q.text).toList = p.text.toList ++ '/' :: q.text.toList := by
      rw [String.toList_append, String.toList_append, List.append_assoc]
      rfl
    simp only [components, htext, splitStart_append hp ('/' :: q.text.toList) (.inr rfl), steps_slash,
      List.append_assoc]

/-- What a relative path leads through is told by its steps: a leading dot
leads nowhere. -/
theorem foldl_components {q : Path} (hq : q.isAbsolute = false) (out : List Component) :
    q.components.foldl normalStep out = (steps q.text.toList).foldl normalStep out := by
  rw [Bool.eq_false_iff, Ne, isAbsolute_iff] at hq
  generalize hs : q.text.toList = s at hq
  simp only [components, hs]
  unfold splitStart
  split
  · exact absurd ⟨_, rfl⟩ hq
  · rfl
  · rename_i rest
    have hdot : steps ('.' :: '/' :: rest) = steps rest := steps_slash ['.'] rest
    have hrest : steps ('/' :: rest) = steps rest := steps_slash [] rest
    rw [hdot, hrest]
    rfl
  · rfl

/-- A path is followed step by step from where the one before it leads. -/
theorem components_normalize_join (p : Path) {q : Path} (hq : q.isAbsolute = false) :
    (p.join q).normalize.components = (steps q.text.toList).foldl normalStep p.normalize.components := by
  rw [components_normalize, components_normalize]
  by_cases hp : p.text.toList = []
  · obtain rfl : p = ⟨""⟩ := congrArg Path.mk (String.toList_eq_nil_iff.1 hp)
    rw [show (⟨""⟩ : Path).join q = q by simp [join]]
    exact foldl_components hq _
  · rw [components_join hp hq, List.foldl_append]

/-- The directory of an absolute path is absolute. -/
theorem isAbsolute_of_parent? {p dir : Path} (hp : p.isAbsolute = true) (h : p.parent? = .some dir) :
    dir.isAbsolute = true := by
  obtain ⟨rest, hrest⟩ := isAbsolute_iff.1 hp
  have hstart : splitStart ('/' :: rest) = ([.root], ['/'], rest) := rfl
  simp only [parent?, hrest, hstart] at h
  split at h
  · cases h
  · cases h
    exact isAbsolute_iff.2 ⟨_, String.toList_ofList⟩

/-! ## Normal paths from the root -/

/-- The root, and names after it. -/
def Rooted (cs : List Component) : Prop :=
  ∃ names : List String, (∀ s ∈ names, (Component.name s).IsPlain) ∧ cs = .root :: names.map .name

theorem rooted_normalStep {out : List Component} {c : Component} (h : Rooted out) (hc : c.IsPlain) :
    Rooted (normalStep out c) := by
  obtain ⟨names, hnames, rfl⟩ := h
  cases c with
  | root => cases hc
  | here => cases hc
  | name s =>
    refine ⟨names ++ [s], ?_, by simp [normalStep]⟩
    intro t ht
    rcases List.mem_append.1 ht with ht | ht
    · exact hnames t ht
    · rwa [List.mem_singleton.1 ht]
  | up =>
    rcases List.eq_nil_or_concat names with rfl | ⟨front, s, rfl⟩
    · exact ⟨[], by simp, rfl⟩
    · refine ⟨front, fun t ht => hnames t (by simp [ht]), ?_⟩
      rw [List.concat_eq_append, List.map_append, List.map_singleton, ← List.cons_append, normalStep,
        List.getLast?_concat, List.dropLast_concat]

/-- A pair of dots in an absolute path never leads above the root. -/
theorem rooted_normalize {p : Path} (hp : p.isAbsolute = true) : Rooted p.normalize.components := by
  obtain ⟨rest, hrest⟩ := isAbsolute_iff.1 hp
  rw [components_normalize, components_absolute hrest, List.foldl_cons]
  exact List.foldlRecOn _ _ ⟨[], by simp, rfl⟩ fun out hout c hc => rooted_normalStep hout (steps_isPlain hc)

theorem isAbsolute_join {p q : Path} (hp : p.isAbsolute = true) (hq : q.isAbsolute = false) :
    (p.join q).isAbsolute = true := by
  obtain ⟨rest, hrest⟩ := isAbsolute_iff.1 hp
  simp only [join, hq, Bool.false_or]
  split
  · rename_i hempty
    rw [String.isEmpty_iff.1 hempty] at hrest
    cases hrest
  · split
    · exact isAbsolute_iff.2 ⟨rest ++ q.text.toList, by simp [hrest]⟩
    · exact isAbsolute_iff.2 ⟨rest ++ '/' :: q.text.toList, by simp [hrest]⟩

/-! ## The way to a file -/

/-- Pairs of dots take away as many names. -/
theorem foldl_climb (out : List Component) (names : List String) :
    (List.replicate names.length Component.up).foldl normalStep (out ++ names.map .name) = out := by
  induction names using List.reverseRecOn with
  | nil => simp
  | append_singleton names s ih =>
    have hstep : normalStep (out ++ (names ++ [s]).map .name) .up = out ++ names.map .name := by
      rw [List.map_append, List.map_singleton, ← List.append_assoc, normalStep, List.getLast?_concat,
        List.dropLast_concat]
    rw [List.length_append, List.length_singleton, List.replicate_succ, List.foldl_cons, hstep, ih]

/-- Names lead down. -/
theorem foldl_descend (out : List Component) (names : List String) :
    (names.map Component.name).foldl normalStep out = out ++ names.map .name := by
  induction names generalizing out with
  | nil => simp
  | cons s names ih =>
    rw [List.map_cons, List.foldl_cons, ih, normalStep, List.append_assoc, List.singleton_append]
    all_goals
      intro h
      cases h

/-- What two lists begin with, and how they go on. -/
theorem exists_common (as bs : List Component) :
    ∃ front a b, as = front ++ a ∧ bs = front ++ b ∧ commonLength as bs = front.length := by
  induction as generalizing bs with
  | nil => exact ⟨[], [], bs, rfl, rfl, rfl⟩
  | cons c cs ih =>
    cases bs with
    | nil => exact ⟨[], c :: cs, [], rfl, rfl, rfl⟩
    | cons d ds =>
      by_cases h : c = d
      · subst h
        obtain ⟨front, a, b, ha, hb, hlen⟩ := ih ds
        exact ⟨c :: front, a, b, by rw [ha]; rfl, by rw [hb]; rfl, by simp [commonLength, hlen]⟩
      · exact ⟨[], c :: cs, d :: ds, rfl, rfl, by simp [commonLength, h]⟩

/-- From one directory to a file one climbs, goes down by names, and gets there. -/
theorem exists_way {base target : Path} (hb : Rooted base.components) (ht : Rooted target.components) :
    ∃ (n : Nat) (names : List String), (∀ s ∈ names, (Component.name s).IsPlain) ∧
      (relativeTo base target).components = List.replicate n .up ++ names.map .name ∧
      (relativeTo base target).components.foldl normalStep base.components = target.components := by
  obtain ⟨bs, -, hbase⟩ := hb
  obtain ⟨ts, hts, htarget⟩ := ht
  obtain ⟨front, a, b, ha, hb, hlen⟩ := exists_common (bs.map Component.name) (ts.map .name)
  obtain ⟨bs, as, rfl, rfl, rfl⟩ := List.map_eq_append_iff.1 ha
  obtain ⟨ts, names, rfl, hfront, rfl⟩ := List.map_eq_append_iff.1 hb
  have hplain : ∀ s ∈ names, (Component.name s).IsPlain := fun s hs => hts s (by simp [hs])
  have hway : (relativeTo base target).components = List.replicate as.length .up ++ names.map .name := by
    have hcommon : commonLength base.components target.components = bs.length + 1 := by
      rw [hbase, htarget, commonLength, hlen, List.length_map]
      simp
    rw [relativeTo, hcommon, components_ofComponents]
    · rw [hbase, htarget, List.length_cons, List.length_map, List.length_append, List.drop_succ_cons, List.map_append,
        hfront, List.drop_left' (List.length_map _)]
      congr 2
      omega
    · refine ⟨_, ?_, .inl rfl⟩
      intro c hc
      rcases List.mem_append.1 hc with hc | hc
      · rw [List.eq_of_mem_replicate hc]
        trivial
      · rw [htarget, List.drop_succ_cons, List.map_append, hfront, List.drop_left' (List.length_map _)] at hc
        obtain ⟨s, hs, rfl⟩ := List.mem_map.1 hc
        exact hplain s hs
  refine ⟨as.length, names, hplain, hway, ?_⟩
  rw [hway, List.foldl_append, hbase, List.map_append, ← List.cons_append, foldl_climb, foldl_descend, htarget,
    List.map_append, hfront]
  rfl

/-! ## Ways as they are written -/

/-- The steps as a resource has them. -/
def written (way : List Component) : String :=
  if way.isEmpty then "." else "/".intercalate (way.map Component.text)

/-- A way that is written names its steps. -/
theorem steps_written {cs : List Component} (h : ∀ c ∈ cs, c.IsPlain) : steps (written cs).toList = cs := by
  unfold written
  split
  · rename_i hnil
    rw [List.isEmpty_iff.1 hnil]
    rfl
  · have htext : ("/".intercalate (cs.map Component.text)).toList = ['/'].intercalate (cs.map (·.text.toList)) := by
      rw [String.toList_intercalate, List.map_map]
      rfl
    rw [htext, steps_intercalate h]

theorem toList_written_cons (c : Component) (cs : List Component) :
    (written (c :: cs)).toList = c.text.toList ++ cs.flatMap fun d => '/' :: d.text.toList := by
  rw [written, if_neg (by simp), String.toList_intercalate, List.map_map, List.map_cons]
  exact (intercalate_cons_eq _ _ _).trans (congrArg _ (List.flatMap_map _ _ _))

theorem isAbsolute_written {cs : List Component} (h : ∀ c ∈ cs, c.IsPlain) : isAbsolute ⟨written cs⟩ = false := by
  cases cs with
  | nil => rfl
  | cons c cs =>
    have hc := h c List.mem_cons_self
    have hslash := hc.no_slash
    have hidle := hc.not_idle
    rw [isAbsolute, toList_written_cons]
    cases hs : c.text.toList with
    | nil => simp [hs, isIdle] at hidle
    | cons d ds =>
      rw [hs] at hslash
      simpa using fun h => hslash (by simp [h])

/-! ## Relocated resources -/

/-- The part of a resource that names the file. -/
def fileOf (resource : String) : String := String.ofList (resource.toList.takeWhile fun c => !startsSuffix c)

/-- The query and the fragment of a resource: it from its first `?` or `#` on. -/
def suffixOf (resource : String) : String := String.ofList (resource.toList.dropWhile fun c => !startsSuffix c)

/-- The way from the directory of `target` to the file that the resource names
in `origin`. -/
def way (resource : String) (origin target : Path) : List Component :=
  (relativeTo target.directory.normalize (origin.directory.join ⟨fileOf resource⟩).normalize).components

/-- A relocated resource is the way to the file, and the suffix. -/
theorem relocate?_eq (resource : String) (origin target : Path) :
    relocate? resource origin target =
      if isRelativeResource resource = false ∨ origin.directory.normalize = target.directory.normalize then .none
      else .some (written (way resource origin target) ++ suffixOf resource) := by
  have hsame : origin.directory.normalize.same target.directory.normalize = true ↔
      origin.directory.normalize = target.directory.normalize := IsNormalized.same_iff ⟨_, rfl⟩ ⟨_, rfl⟩
  simp only [relocate?, Bool.or_eq_true, Bool.not_eq_true', hsame]
  split
  · rfl
  · simp only [written, way, fileOf, suffixOf, List.isEmpty_map]
    rfl

theorem directory_eq {p dir : Path} (h : p.parent? = .some dir) : p.directory = dir := by
  rw [directory, h]
  rfl

/-- A resource that is relative does not begin with a slash, nor does the file
that it names. -/
theorem isAbsolute_fileOf {resource : String} (h : isRelativeResource resource = true) :
    isAbsolute ⟨fileOf resource⟩ = false := by
  by_contra habsolute
  rw [Bool.not_eq_false, isAbsolute_iff] at habsolute
  obtain ⟨rest, hrest⟩ := habsolute
  rw [fileOf, String.toList_ofList] at hrest
  have hhead : resource.toList.head? = .some '/' := by
    cases hs : resource.toList with
    | nil => simp [hs] at hrest
    | cons c cs =>
      rw [hs, List.takeWhile_cons] at hrest
      split at hrest
      · rw [(List.cons.inj hrest).1]
        rfl
      · cases hrest
  obtain ⟨more, hmore⟩ := List.head?_eq_some_iff.1 hhead
  simp [isRelativeResource, hmore, Text.trim_cons (c := '/') rfl] at h

/-- The way to a file is of steps that a path can have, and following it one
gets there. -/
theorem way_leads (resource : String) (origin target : Path) (horigin : origin.directory.isAbsolute = true)
    (htarget : target.directory.isAbsolute = true) (hresource : isRelativeResource resource = true) :
    (∃ (n : Nat) (names : List String), way resource origin target = List.replicate n .up ++ names.map .name) ∧
      (∀ c ∈ way resource origin target, c.IsPlain) ∧
      (target.directory.join ⟨written (way resource origin target)⟩).normalize =
        (origin.directory.join ⟨fileOf resource⟩).normalize := by
  have hjoin := isAbsolute_join horigin (isAbsolute_fileOf hresource)
  have hbase : Rooted target.directory.normalize.components := rooted_normalize htarget
  obtain ⟨n, names, hnames, hway, hleads⟩ := exists_way hbase (rooted_normalize hjoin)
  have hplain : ∀ c ∈ way resource origin target, c.IsPlain := by
    intro c hc
    rw [way, hway] at hc
    rcases List.mem_append.1 hc with hc | hc
    · rw [List.eq_of_mem_replicate hc]
      trivial
    · obtain ⟨s, hs, rfl⟩ := List.mem_map.1 hc
      exact hnames s hs
  refine ⟨⟨n, names, hway⟩, hplain, ?_⟩
  apply (IsNormalized.same_iff ⟨_, rfl⟩ ⟨_, rfl⟩).1
  rw [same, beq_iff_eq, components_normalize_join _ (isAbsolute_written hplain), steps_written hplain]
  exact hleads

/-- A relative resource is relocated unless the two files are in the same
directory. It is then what leads from the target's directory to the file that
it named, and its suffix. -/
theorem relocate?_leads {origin target originDir targetDir : Path} {resource : String}
    (horigin : origin.isAbsolute = true) (htarget : target.isAbsolute = true) (hod : origin.parent? = .some originDir)
    (htd : target.parent? = .some targetDir) (hresource : isRelativeResource resource = true) :
    (relocate? resource origin target = .none ↔ originDir.normalize = targetDir.normalize) ∧
      ∀ q, relocate? resource origin target = .some q →
        ∃ r, q = r ++ suffixOf resource ∧ (targetDir.join ⟨r⟩).normalize = (originDir.join ⟨fileOf resource⟩).normalize := by
  have hleads := way_leads resource origin target
    (by rw [directory_eq hod]; exact isAbsolute_of_parent? horigin hod)
    (by rw [directory_eq htd]; exact isAbsolute_of_parent? htarget htd) hresource
  rw [relocate?_eq, hresource, directory_eq hod, directory_eq htd]
  rw [directory_eq hod, directory_eq htd] at hleads
  constructor
  · constructor
    · intro h
      by_contra hne
      simp [hne] at h
    · intro h
      simp [h]
  · intro q hq
    by_cases hsame : originDir.normalize = targetDir.normalize
    · simp [hsame] at hq
    · simp only [Bool.true_eq_false, hsame, or_self, if_false, Option.some.injEq] at hq
      exact ⟨_, hq.symm, hleads.2.2⟩

/-- Out of one directory and into another, past where the two part. -/
theorem relocate?_leads_across :
    (Path.mk "/p/src//theme").normalize ≠ (Path.mk "/p/src/pages/../pages/home").normalize ∧
      relocate? "../assets/./bg.png?v=2#top" ⟨"/p/src//theme/dark.scss"⟩ ⟨"/p/src/pages/../pages/home/index.scss"⟩ =
        .some "../../assets/bg.png?v=2#top" ∧
      ∃ r, "../../assets/bg.png?v=2#top" = r ++ suffixOf "../assets/./bg.png?v=2#top" ∧
        ((Path.mk "/p/src/pages/../pages/home").join ⟨r⟩).normalize =
          ((Path.mk "/p/src//theme").join ⟨fileOf "../assets/./bg.png?v=2#top"⟩).normalize := by
  have hrelocated : relocate? "../assets/./bg.png?v=2#top" ⟨"/p/src//theme/dark.scss"⟩
      ⟨"/p/src/pages/../pages/home/index.scss"⟩ = .some "../../assets/bg.png?v=2#top" := by decide +kernel
  obtain ⟨hnone, hsome⟩ := @relocate?_leads ⟨"/p/src//theme/dark.scss"⟩ ⟨"/p/src/pages/../pages/home/index.scss"⟩
    ⟨"/p/src//theme"⟩ ⟨"/p/src/pages/../pages/home"⟩ "../assets/./bg.png?v=2#top" (by decide +kernel) (by decide +kernel)
    (by decide +kernel) (by decide +kernel) (by decide +kernel)
  refine ⟨fun hsame => ?_, hrelocated, hsome _ hrelocated⟩
  rw [hnone.2 hsame] at hrelocated
  cases hrelocated

end ThemeVars.Path
