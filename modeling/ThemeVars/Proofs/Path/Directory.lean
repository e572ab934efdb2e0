/-
The directory of a file, by components. `components_directory`: it has those of
the file but the last, however the path is written. So what is relocated for a
file is relocated in the same way for every path that is the same.
-/
import Mathlib.Data.List.DropRight
import ThemeVars.Proofs.Path.Relocation

namespace ThemeVars.Path

/-! ## Segments from the front -/

theorem intercalate_segments (s : List Char) : ['/'].intercalate (segments s) = s := by
  induction s with
  | nil => rfl
  | cons c cs ih =>
    obtain ⟨first, rest, hs⟩ := List.exists_cons_of_ne_nil (segments_ne_nil cs)
    rw [hs, intercalate_cons_eq] at ih
    simp only [segments]
    split
    · rename_i hc
      rw [hs, intercalate_cons_eq, List.flatMap_cons, List.nil_append, List.append_assoc, ih, beq_iff_eq.1 hc]
      rfl
    · rw [hs, List.modifyHead_cons, intercalate_cons_eq, List.cons_append, ih]

/-- Segments from the front of a text are the text up to a slash, or all of it. -/
theorem exists_intercalate {s : List Char} {front : List (List Char)} (h : front <+: segments s) (hne : front ≠ []) :
    ∃ t, s = ['/'].intercalate front ++ t ∧ (t = [] ∨ ∃ u, t = '/' :: u) := by
  obtain ⟨others, hs⟩ := h
  obtain ⟨first, rest, rfl⟩ := List.exists_cons_of_ne_nil hne
  have htext := intercalate_segments s
  rw [← hs, List.cons_append, intercalate_cons_eq, List.flatMap_append] at htext
  refine ⟨others.flatMap (['/'] ++ ·), ?_, ?_⟩
  · rw [← htext, intercalate_cons_eq, List.append_assoc]
  cases others with
  | nil => exact .inl rfl
  | cons other others => exact .inr ⟨_, rfl⟩

/-- The steps along these segments. -/
def stepsAlong (segments : List (List Char)) : List Component := (segments.filter fun s => !isIdle s).map step

theorem steps_eq (body : List Char) : steps body = stepsAlong (segments body) := rfl

theorem steps_front {body : List Char} {front : List (List Char)} (h : front <+: segments body) :
    steps (['/'].intercalate front) = stepsAlong front := by
  cases front with
  | nil => rfl
  | cons first rest => rw [steps_eq, segments_intercalate fun s hs => slash_notMem_segments (h.subset hs)]

/-- What a path starts with stays where segments at its end are left out. -/
theorem components_front {s body lead : List Char} {start : List Component} {front : List (List Char)}
    (hs : splitStart s = (start, lead, body)) (h : front <+: segments body) :
    components ⟨String.ofList (lead ++ ['/'].intercalate front)⟩ = start ++ stepsAlong front := by
  rw [← steps_front h, components, String.toList_ofList]
  unfold splitStart at hs
  split at hs
  · cases hs
    rfl
  · cases hs
    rcases List.prefix_cons_iff.1 h with rfl | ⟨front, rfl, hfront⟩
    · rfl
    · rw [List.prefix_nil.1 hfront]
      rfl
  · rename_i rest
    cases hs
    rcases List.prefix_cons_iff.1 h with rfl | ⟨front, rfl, -⟩
    · rfl
    · cases front with
      | nil => rfl
      | cons next front => rfl
  · rename_i hslash hdot hdots
    cases hs
    have hstart : splitStart (['/'].intercalate front) = ([], [], ['/'].intercalate front) := by
      by_cases hne : front = []
      · rw [hne]
        rfl
      obtain ⟨t, ht, hend⟩ := exists_intercalate h hne
      generalize ['/'].intercalate front = x at ht
      subst ht
      unfold splitStart
      split
      · exact absurd rfl (hslash _)
      · rcases hend with rfl | ⟨u, rfl⟩
        · exact absurd rfl hdot
        · exact absurd rfl (hdots u)
      · exact absurd rfl (hdots _)
      · rfl
    rw [List.nil_append, hstart]

/-! ## Directories -/

theorem stepsAlong_dropIdleEnd (segments : List (List Char)) : stepsAlong (dropIdleEnd segments) = stepsAlong segments := by
  change stepsAlong (segments.rdropWhile isIdle) = _
  induction segments using List.reverseRecOn with
  | nil => rfl
  | append_singleton front last ih =>
    rw [List.rdropWhile_concat]
    split
    · rename_i hidle
      rw [ih, stepsAlong, stepsAlong, List.filter_append]
      simp [hidle]
    · rfl

theorem dropIdleEnd_isPrefix (segments : List (List Char)) : dropIdleEnd segments <+: segments :=
  List.rdropWhile_prefix isIdle segments

theorem isIdle_of_dropIdleEnd {segments front : List (List Char)} {last : List Char}
    (h : dropIdleEnd segments = front ++ [last]) : isIdle last = false := by
  change segments.rdropWhile isIdle = _ at h
  induction segments using List.reverseRecOn with
  | nil => simp at h
  | append_singleton others other ih =>
    rw [List.rdropWhile_concat] at h
    split at h
    · exact ih h
    · rename_i hidle
      rw [← List.singleton_inj.1 (List.append_inj_right' h rfl)]
      simpa using hidle

theorem length_start_le (s : List Char) : (splitStart s).1.length ≤ 1 := by
  unfold splitStart
  split <;> simp

/-- The directory of a file has its components but the last. -/
theorem components_directory (p : Path) : p.directory.components = p.components.dropLast := by
  have hlength := length_start_le p.text.toList
  obtain ⟨start, lead, body, hs⟩ : ∃ start lead body, splitStart p.text.toList = (start, lead, body) := ⟨_, _, _, rfl⟩
  have hsteps : stepsAlong (dropIdleEnd (segments body)) = steps body := stepsAlong_dropIdleEnd _
  simp only [directory, parent?, components, hs] at hlength ⊢
  rcases List.eq_nil_or_concat' (dropIdleEnd (segments body)) with hkept | ⟨front, last, hkept⟩
  · -- nothing but the start is left, which has no directory or the empty one
    have hnone : start.dropLast = [] := List.length_eq_zero_iff.1 (by rw [List.length_dropLast]; omega)
    rw [hkept] at hsteps
    rw [hkept, ← hsteps, show stepsAlong [] = [] from rfl, List.append_nil, hnone]
    simp only
    split <;> rfl
  · have hlast := isIdle_of_dropIdleEnd hkept
    have hfront : dropIdleEnd front <+: segments body := by
      refine (dropIdleEnd_isPrefix front).trans (.trans ?_ (dropIdleEnd_isPrefix _))
      rw [hkept]
      exact List.prefix_append _ _
    have hcut : stepsAlong (front ++ [last]) = stepsAlong front ++ [step last] := by simp [stepsAlong, hlast]
    have hcomponents := components_front hs hfront
    rw [stepsAlong_dropIdleEnd] at hcomponents
    rw [hkept, hcut] at hsteps
    rw [← hsteps, ← List.append_assoc, List.dropLast_concat, ← hcomponents, hkept]
    split
    · rename_i hnil
      simp at hnil
    · rw [List.dropLast_concat]
      rfl

/-- Paths that are the same have directories that are. -/
theorem normalize_directory_of_same {p q : Path} (h : p.same q = true) : p.directory.normalize = q.directory.normalize := by
  rw [normalize, normalize, components_directory, components_directory, beq_iff_eq.1 h]

/-- For paths that are the same, resources are relocated in the same way. -/
theorem relocate?_of_same {target target' : Path} (h : target.same target' = true) (resource : String) (origin : Path) :
    relocate? resource origin target = relocate? resource origin target' := by
  simp only [relocate?, normalize_directory_of_same h]

end ThemeVars.Path
