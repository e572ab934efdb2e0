/-
Resources that are relocated more than once. A way is unmistaken if its text
reads as nothing else than a path: `relocate?_relative` says that a resource
which took such a way is relative and has the suffix that it had, so that the
next relocation finds it and leads to the same file. `relocate?_mistaken`: a
way may begin with a name that reads as a module.
-/
import Mathlib.Data.List.DropRight
import Mathlib.Data.List.TakeWhile
import ThemeVars.Proofs.OrderedSet
import ThemeVars.Proofs.Path.Relocation
import ThemeVars.Variable.Relocation

namespace ThemeVars.Path

open Text (isBlank trim trimStart)

/-! ## What makes a resource relative -/

theorem isRelativeResource_iff {resource : String} :
    isRelativeResource resource = true ↔
      (∃ c rest, trim resource.toList = c :: rest ∧ c ≠ '/' ∧ c ≠ '#' ∧ c ≠ '~') ∧ '$' ∉ resource.toList ∧
        '@' ∉ resource.toList ∧ ¬ ['#', '\x7b'] <:+: resource.toList ∧ hasScheme (trim resource.toList) = false := by
  have hdollar : '$' ∈ trim resource.toList ↔ '$' ∈ resource.toList := Text.mem_trim rfl
  have hat : '@' ∈ trim resource.toList ↔ '@' ∈ resource.toList := Text.mem_trim rfl
  have hbrace := Text.occurs_pair_trim (c := '#') (d := '\x7b') rfl rfl resource.toList
  rw [isRelativeResource, hbrace, ← Text.occurs_iff, ← hdollar, ← hat]
  cases trim resource.toList with
  | nil => simp
  | cons c rest => simp [and_assoc]

theorem mem_suffixOf {resource : String} {c : Char} (h : c ∈ (suffixOf resource).toList) : c ∈ resource.toList := by
  rw [suffixOf, String.toList_ofList] at h
  exact List.dropWhile_subset _ h

theorem head_suffixOf {resource : String} {c : Char} (h : (suffixOf resource).toList.head? = .some c) :
    startsSuffix c = true := by
  rw [suffixOf, String.toList_ofList] at h
  have hhead := List.head?_dropWhile_not (fun c => !startsSuffix c) resource.toList
  rw [h] at hhead
  simpa using hhead

/-- A file and a suffix are told apart again. -/
theorem parts_append {file : String} (resource : String) (h : ∀ c ∈ file.toList, startsSuffix c = false) :
    fileOf (file ++ suffixOf resource) = file ∧ suffixOf (file ++ suffixOf resource) = suffixOf resource := by
  have hfile : ∀ c ∈ file.toList, (!startsSuffix c) = true := fun c hc => by rw [h c hc]; rfl
  constructor
  · rw [fileOf, String.toList_append, List.takeWhile_append_of_pos hfile]
    cases hs : (suffixOf resource).toList with
    | nil => simp
    | cons c rest => simp [head_suffixOf (List.head?_eq_some_iff.2 ⟨rest, hs⟩)]
  · rw [suffixOf, String.toList_append, List.dropWhile_append_of_pos hfile, suffixOf, String.toList_ofList,
      List.dropWhile_idempotent]

/-! ## Ways that read as paths -/

/-- No step on the way has a sigil, or a character that begins a suffix; and if
it begins with a name, then, but for blanks, with one that reads neither as a
module nor as a scheme. -/
structure Unmistaken (way : List Component) : Prop where
  chars : ∀ c ∈ way, ∀ d ∈ c.text.toList, d ≠ '$' ∧ d ≠ '@' ∧ startsSuffix d = false
  first : ∀ s, way.head? = .some (.name s) →
    ∃ c rest, trimStart s.toList = c :: rest ∧ c ≠ '~' ∧ hasScheme (c :: rest) = false

theorem mem_written {cs : List Component} {d : Char} (hd : d ∈ (written cs).toList) :
    d = '/' ∨ d = '.' ∨ ∃ c ∈ cs, d ∈ c.text.toList := by
  cases cs with
  | nil => exact .inr (.inl (by simpa [written] using hd))
  | cons c cs =>
    rw [toList_written_cons, List.mem_append, List.mem_flatMap] at hd
    rcases hd with hd | ⟨e, he, hd⟩
    · exact .inr (.inr ⟨c, List.mem_cons_self, hd⟩)
    · rcases List.mem_cons.1 hd with hd | hd
      · exact .inl hd
      · exact .inr (.inr ⟨e, List.mem_cons_of_mem _ he, hd⟩)

/-- What is in no step on the way is not in its text. -/
theorem Unmistaken.written_lacks {cs : List Component} (h : Unmistaken cs) :
    ∀ d ∈ (written cs).toList, d ≠ '$' ∧ d ≠ '@' ∧ startsSuffix d = false := by
  intro d hd
  rcases mem_written hd with rfl | rfl | ⟨c, hc, hd⟩
  · decide
  · decide
  · exact h.chars c hc d hd

/-- A scheme is not made longer by what no scheme goes on with. -/
theorem hasScheme_append {c : Char} {s rest : List Char} (h : hasScheme (c :: s) = false)
    (hrest : ∀ d, rest.head? = .some d → isSchemeChar d = false ∧ d ≠ ':') : hasScheme (c :: (s ++ rest)) = false := by
  rw [hasScheme, Bool.and_eq_false_iff] at h ⊢
  refine h.imp_right fun h => ?_
  rw [← List.cons_append, List.dropWhile_append]
  split
  · cases rest with
    | nil => rfl
    | cons d rest =>
      obtain ⟨hd, hcolon⟩ := hrest d rfl
      rw [List.dropWhile_cons_of_neg (by simp [hd])]
      simpa using hcolon
  · rename_i hne
    cases hdrop : (c :: s).dropWhile isSchemeChar with
    | nil => simp [hdrop] at hne
    | cons d more =>
      rw [hdrop] at h
      exact h

theorem hasScheme_of_isPrefix {s t : List Char} (hst : s <+: t) (h : hasScheme t = false) : hasScheme s = false := by
  obtain ⟨more, rfl⟩ := hst
  by_contra hs
  rw [Bool.not_eq_false, hasScheme, Bool.and_eq_true, beq_iff_eq] at hs
  obtain ⟨hfirst, hcolon⟩ := hs
  obtain ⟨rest, hrest⟩ := List.head?_eq_some_iff.1 hcolon
  cases s with
  | nil => cases hfirst
  | cons c s =>
    rw [hasScheme, List.dropWhile_append, hrest] at h
    simp only [List.cons_append, List.head?_cons] at h hfirst
    simp [hfirst] at h

/-- The first character of an unmistaken way, but for blanks, is none that a
resource is told by, and there is no scheme. -/
theorem Unmistaken.head {cs : List Component} (h : Unmistaken cs) (hcs : ∀ c ∈ cs, c.IsPlain) {suffix : List Char}
    (hsuffix : ∀ c, suffix.head? = .some c → startsSuffix c = true) :
    ∃ c rest, trimStart ((written cs).toList ++ suffix) = c :: rest ∧ isBlank c = false ∧ (c ≠ '/' ∧ c ≠ '#' ∧ c ≠ '~') ∧
      hasScheme (c :: rest) = false := by
  cases cs with
  | nil => exact ⟨'.', suffix, rfl, rfl, by decide, rfl⟩
  | cons c cs =>
    rw [toList_written_cons]
    cases c with
    | up => exact ⟨'.', _, rfl, rfl, by decide, rfl⟩
    | name s =>
      obtain ⟨c, rest, htrim, htilde, hscheme⟩ := h.first s rfl
      have hmem : c ∈ s.toList := List.dropWhile_subset _ (htrim ▸ List.mem_cons_self)
      have hblank : isBlank c = false := by
        have hhead := List.head?_dropWhile_not isBlank s.toList
        rw [show s.toList.dropWhile isBlank = c :: rest from htrim] at hhead
        simpa using hhead
      rw [List.append_assoc, trimStart, List.dropWhile_append,
        show (Component.name s).text.toList.dropWhile isBlank = c :: rest from htrim, if_neg (by simp)]
      refine ⟨c, _, rfl, hblank, ⟨?_, ?_, htilde⟩, hasScheme_append hscheme fun d hd => ?_⟩
      · rintro rfl
        exact (hcs _ List.mem_cons_self).no_slash hmem
      · rintro rfl
        cases (h.chars _ List.mem_cons_self _ hmem).2.2
      · -- after the name comes a slash, the suffix, or nothing
        cases cs with
        | nil =>
          have hstarts := hsuffix d hd
          simp only [startsSuffix, Bool.or_eq_true, beq_iff_eq] at hstarts
          rcases hstarts with rfl | rfl <;> decide
        | cons e cs =>
          cases hd
          decide
    | root => exact (hcs _ List.mem_cons_self).elim
    | here => exact (hcs _ List.mem_cons_self).elim

/-- An unmistaken way is relative as it is written, whatever suffix it has. -/
theorem Unmistaken.isRelativeResource {cs : List Component} {resource : String} (h : Unmistaken cs)
    (hcs : ∀ c ∈ cs, c.IsPlain) (hresource : isRelativeResource resource = true) :
    isRelativeResource (written cs ++ suffixOf resource) = true := by
  have hlacks := h.written_lacks
  obtain ⟨-, hdollar, hat, hbrace, -⟩ := isRelativeResource_iff.1 hresource
  have hinfix : (suffixOf resource).toList <:+: resource.toList := by
    rw [suffixOf, String.toList_ofList]
    exact (List.dropWhile_suffix _).isInfix
  have hsuffix : ∀ d, (suffixOf resource).toList.head? = .some d → startsSuffix d = true := fun _ => head_suffixOf
  obtain ⟨c, rest, hstart, hblank, hhead, hscheme⟩ := h.head hcs hsuffix
  have htrim : trim ((written cs).toList ++ (suffixOf resource).toList) = c :: Text.trimEnd rest := by
    rw [trim, hstart, Text.trimEnd_cons hblank]
  rw [isRelativeResource_iff, String.toList_append]
  refine ⟨⟨c, _, htrim, hhead⟩, ?_, ?_, ?_, ?_⟩
  · rw [List.mem_append, not_or]
    exact ⟨fun hd => (hlacks _ hd).1 rfl, fun hd => hdollar (mem_suffixOf hd)⟩
  · rw [List.mem_append, not_or]
    exact ⟨fun hd => (hlacks _ hd).2.1 rfl, fun hd => hat (mem_suffixOf hd)⟩
  · intro hpair
    have hhash : '#' ∉ (written cs).toList := fun hd => by simpa [startsSuffix] using (hlacks _ hd).2.2
    exact hbrace ((Text.pair_infix_of_append hhash hpair).trans hinfix)
  · rw [htrim]
    exact hasScheme_of_isPrefix (List.cons_prefix_cons.2 ⟨rfl, Text.trimEnd_isPrefix rest⟩) hscheme

/-! ## One relocation after the other -/

/-- A relative resource in a value is among the paths that are kept of it. -/
theorem ofValue_lists {value resource : String} {paths : List String} {file : Path}
    (hpaths : Value.resourcePaths value = .ok paths) (hmem : resource ∈ paths)
    (hresource : isRelativeResource resource = true) :
    ∃ urls, RelativeUrls.ofValue value (.some file) = .ok (.some urls) ∧ urls.origin = file ∧ resource ∈ urls.paths := by
  have hkept : resource ∈ OrderedSet.ofList (paths.filter isRelativeResource) := by
    rw [OrderedSet.ofList, OrderedSet.mem_union]
    exact .inr (List.mem_filter.2 ⟨hmem, hresource⟩)
  have hne : (OrderedSet.ofList (paths.filter isRelativeResource)).isEmpty = false := by
    rw [List.isEmpty_eq_false_iff]
    exact List.ne_nil_of_mem hkept
  refine ⟨⟨file, _⟩, ?_, rfl, hkept⟩
  simp only [RelativeUrls.ofValue, hpaths, hne]
  rfl

/-- A relocated resource whose way is unmistaken is relative and has the suffix
that it had. It is kept of a value that names it, and the next relocation
leads to the file that it named at first. -/
theorem relocate?_relative {origin target originDir targetDir : Path} {resource q : String}
    (horigin : origin.isAbsolute = true) (htarget : target.isAbsolute = true) (hod : origin.parent? = .some originDir)
    (htd : target.parent? = .some targetDir) (hway : Unmistaken (way resource origin target))
    (hq : relocate? resource origin target = .some q) :
    isRelativeResource q = true ∧ suffixOf q = suffixOf resource ∧
      (∀ value paths, Value.resourcePaths value = .ok paths → q ∈ paths →
        ∃ urls, RelativeUrls.ofValue value (.some target) = .ok (.some urls) ∧ urls.origin = target ∧ q ∈ urls.paths) ∧
      ∀ next nextDir : Path, next.isAbsolute = true → next.parent? = .some nextDir →
        targetDir.normalize ≠ nextDir.normalize →
        ∃ r, relocate? q target next = .some (r ++ suffixOf resource) ∧
          (nextDir.join ⟨r⟩).normalize = (originDir.join ⟨fileOf resource⟩).normalize := by
  rw [relocate?_eq] at hq
  split at hq
  · cases hq
  rename_i hmoves
  rw [not_or, Bool.not_eq_false] at hmoves
  obtain ⟨-, hplain, hleads⟩ := way_leads resource origin target
    (by rw [directory_eq hod]; exact isAbsolute_of_parent? horigin hod)
    (by rw [directory_eq htd]; exact isAbsolute_of_parent? htarget htd) hmoves.1
  obtain ⟨hfile, hsuffix⟩ := parts_append resource fun c hc => (hway.written_lacks c hc).2.2
  have hrelative := hway.isRelativeResource hplain hmoves.1
  rw [Option.some.inj hq] at hfile hsuffix hrelative
  refine ⟨hrelative, hsuffix, fun value paths hpaths hmem => ofValue_lists hpaths hmem hrelative, ?_⟩
  intro next nextDir hnext hnd hdirs
  obtain ⟨hnone, hsome⟩ := relocate?_leads htarget hnext htd hnd hrelative
  obtain ⟨q', hq'⟩ := Option.ne_none_iff_exists'.1 (mt hnone.1 hdirs)
  obtain ⟨r, rfl, hr⟩ := hsome q' hq'
  rw [hsuffix] at hq'
  rw [directory_eq hod, directory_eq htd] at hleads
  exact ⟨r, hq', by rw [hr, hfile, hleads]⟩

/-- Up out of a directory, and down into one with a colon in its name. -/
theorem relocate?_relative_up :
    isRelativeResource "../../i:b/x y.svg#top" = true ∧ suffixOf "../../i:b/x y.svg#top" = suffixOf "./i:b/./x y.svg#top" ∧
      (∀ value paths, Value.resourcePaths value = .ok paths → "../../i:b/x y.svg#top" ∈ paths →
        ∃ urls, RelativeUrls.ofValue value (.some ⟨"/p/a/b/mid.css"⟩) = .ok (.some urls) ∧ urls.origin = ⟨"/p/a/b/mid.css"⟩ ∧
          "../../i:b/x y.svg#top" ∈ urls.paths) ∧
      ∀ next nextDir : Path, next.isAbsolute = true → next.parent? = .some nextDir →
        (Path.mk "/p/a/b").normalize ≠ nextDir.normalize →
        ∃ r, relocate? "../../i:b/x y.svg#top" ⟨"/p/a/b/mid.css"⟩ next = .some (r ++ suffixOf "./i:b/./x y.svg#top") ∧
          (nextDir.join ⟨r⟩).normalize = ((Path.mk "/p").join ⟨fileOf "./i:b/./x y.svg#top"⟩).normalize :=
  @relocate?_relative ⟨"/p/theme.css"⟩ _ _ _ _ _ (by decide +kernel) (by decide +kernel) (by decide +kernel)
    (by decide +kernel)
    (by
      have hsteps : way "./i:b/./x y.svg#top" ⟨"/p/theme.css"⟩ ⟨"/p/a/b/mid.css"⟩ = [.up, .up, .name "i:b", .name "x y.svg"] := by
        decide +kernel
      rw [hsteps]
      constructor
      · simp [Component.text, startsSuffix]
      · simp)
    (by decide +kernel)

/-- Seen from a directory above the file, a resource may begin with any name,
and with one that reads as a module it is not relative any more. -/
theorem relocate?_mistaken :
    isRelativeResource "../images/~bg.png" = true ∧
      relocate? "../images/~bg.png" ⟨"/a/theme/theme.css"⟩ ⟨"/a/images/index.css"⟩ = .some "~bg.png" ∧
      isRelativeResource "~bg.png" = false := by
  decide +kernel

end ThemeVars.Path
