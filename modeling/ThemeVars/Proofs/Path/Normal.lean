/-
Paths in normal form. `components_ofComponents`: components that a normal path
can have are read back from the path that is written with them. So normal
paths that are the same are written the same (`IsNormalized.same_iff`).
-/
import Mathlib.Tactic.Common
import ThemeVars.Path.Basic

namespace ThemeVars

namespace Component

/-- A step that a normal path can have after its root. -/
def IsPlain : Component → Prop
  | .up => True
  | .name s => '/' ∉ s.toList ∧ Path.isIdle s.toList = false ∧ s ≠ ".."
  | _ => False

theorem IsPlain.no_slash {c : Component} (h : c.IsPlain) : '/' ∉ c.text.toList := by
  cases c with
  | up => decide
  | name s => exact h.1
  | root => cases h
  | here => cases h

theorem IsPlain.not_idle {c : Component} (h : c.IsPlain) : Path.isIdle c.text.toList = false := by
  cases c with
  | up => rfl
  | name s => exact h.2.1
  | root => cases h
  | here => cases h

theorem IsPlain.step_text {c : Component} (h : c.IsPlain) : Path.step c.text.toList = c := by
  cases c with
  | up => rfl
  | name s =>
    have hs : s.toList ≠ ['.', '.'] := fun he => h.2.2 (String.toList_injective he)
    simp [Path.step, text, hs]
  | root => cases h
  | here => cases h

end Component

namespace Path

/-! ## Segments -/

theorem slash_notMem_segments {s segment : List Char} (h : segment ∈ segments s) : '/' ∉ segment := by
  induction s generalizing segment with
  | nil => simp_all [segments]
  | cons c cs ih =>
    simp only [segments] at h
    split at h
    · rcases List.mem_cons.1 h with rfl | h
      · exact List.not_mem_nil
      · exact ih h
    · rename_i hc
      cases hs : segments cs with
      | nil => simp [hs] at h
      | cons first rest =>
        rw [hs, List.modifyHead_cons, List.mem_cons] at h
        rcases h with rfl | h
        · have hfirst : '/' ∉ first := ih (by simp [hs])
          simp only [beq_iff_eq] at hc
          simp [hfirst, Ne.symm hc]
        · exact ih (by simp [hs, h])

theorem segments_append {segment : List Char} (h : '/' ∉ segment) (rest : List Char) :
    segments (segment ++ '/' :: rest) = segment :: segments rest := by
  induction segment with
  | nil => rfl
  | cons c cs ih =>
    rw [List.mem_cons, not_or] at h
    rw [List.cons_append, segments, ih h.2, if_neg (by simpa using Ne.symm h.1), List.modifyHead_cons]

theorem segments_self {segment : List Char} (h : '/' ∉ segment) : segments segment = [segment] := by
  induction segment with
  | nil => rfl
  | cons c cs ih =>
    rw [List.mem_cons, not_or] at h
    rw [segments, ih h.2, if_neg (by simpa using Ne.symm h.1), List.modifyHead_cons]

/-- Texts without slashes are what stands between the slashes. -/
theorem segments_intercalate {segment : List Char} {rest : List (List Char)}
    (h : ∀ s ∈ segment :: rest, '/' ∉ s) : segments (['/'].intercalate (segment :: rest)) = segment :: rest := by
  induction rest generalizing segment with
  | nil => simpa using segments_self (h segment (by simp))
  | cons next rest ih =>
    rw [List.intercalate_cons_cons, List.append_assoc, List.singleton_append,
      segments_append (h segment (by simp)), ih fun s hs => h s (List.mem_cons_of_mem _ hs)]

theorem steps_isPlain {body : List Char} {c : Component} (h : c ∈ steps body) : c.IsPlain := by
  rw [steps, List.mem_map] at h
  obtain ⟨segment, hs, rfl⟩ := h
  rw [List.mem_filter] at hs
  have hslash := slash_notMem_segments hs.1
  unfold step
  split
  · trivial
  · rename_i hup
    refine ⟨by simpa using hslash, by simpa using hs.2, fun he => hup ?_⟩
    have := congrArg String.toList he
    simpa using this

/-! ## Normal lists of components -/

/-- The components that a normal path can have: a root at the front, and plain
steps. -/
def IsNormal (cs : List Component) : Prop :=
  ∃ rest : List Component, (∀ c ∈ rest, c.IsPlain) ∧ (cs = rest ∨ cs = .root :: rest)

theorem isNormal_normalStep {out : List Component} {c : Component} (h : IsNormal out) (hc : c.IsPlain) :
    IsNormal (normalStep out c) := by
  obtain ⟨rest, hrest, hout⟩ := h
  have hadd (d : Component) (hd : d.IsPlain) : IsNormal (out ++ [d]) := by
    refine ⟨rest ++ [d], ?_, hout.imp (congrArg (· ++ [d])) (congrArg (· ++ [d]))⟩
    intro e he
    rcases List.mem_append.1 he with he | he
    · exact hrest e he
    · rwa [List.mem_singleton.1 he]
  cases c with
  | root => cases hc
  | here => cases hc
  | name s => exact hadd _ hc
  | up =>
    simp only [normalStep]
    split
    · rename_i s hlast
      rcases hout with rfl | rfl
      · exact ⟨_, fun c hc => hrest c (List.dropLast_subset _ hc), .inl rfl⟩
      · cases rest with
        | nil => cases hlast
        | cons d ds => exact ⟨_, fun c hc => hrest c (List.dropLast_subset _ hc), .inr rfl⟩
    · exact ⟨rest, hrest, hout⟩
    · exact hadd _ trivial

/-- Normalizing gives a normal list of components. -/
theorem isNormal_components (p : Path) : IsNormal (p.components.foldl normalStep []) := by
  have hnil : IsNormal [] := ⟨[], fun _ h => (nomatch h), .inl rfl⟩
  have hroot : IsNormal [.root] := ⟨[], fun _ h => (nomatch h), .inr rfl⟩
  simp only [components, List.foldl_append]
  refine List.foldlRecOn _ _ ?_ fun out hout c hc => isNormal_normalStep hout (steps_isPlain hc)
  unfold splitStart
  split
  · exact hroot
  · exact hnil
  · exact hnil
  · exact hnil

/-! ## Written and read back -/

theorem intercalate_cons_eq (sep segment : List Char) (rest : List (List Char)) :
    sep.intercalate (segment :: rest) = segment ++ rest.flatMap (sep ++ ·) := by
  induction rest generalizing segment with
  | nil => simp
  | cons next rest ih => rw [List.intercalate_cons_cons, ih, List.flatMap_cons, List.append_assoc, List.append_assoc]

theorem isAbsolute_plain {c : Component} (hc : c.IsPlain) : isAbsolute ⟨c.text⟩ = false := by
  have hs := hc.no_slash
  unfold isAbsolute
  cases h : c.text.toList with
  | nil => rfl
  | cons d ds =>
    rw [h] at hs
    simp only [List.mem_cons, not_or] at hs
    simpa using Ne.symm hs.1

theorem join_plain {p : Path} {c : Component} (hc : c.IsPlain) (hp : p.text.toList ≠ []) :
    (p.join ⟨c.text⟩).text.toList =
      p.text.toList ++ (if p.text.toList.getLast? = .some '/' then [] else ['/']) ++ c.text.toList := by
  have hempty : p.text.isEmpty = false := by
    rw [Bool.eq_false_iff]
    exact fun h => hp (by rw [String.isEmpty_iff.1 h]; rfl)
  simp only [join, isAbsolute_plain hc, hempty, Bool.or_self, Bool.false_eq_true, if_false, beq_iff_eq]
  split <;> simp

theorem foldl_join {p : Path} {cs : List Component} (hcs : ∀ c ∈ cs, c.IsPlain) (hp : p.text.toList ≠ [])
    (hlast : p.text.toList.getLast? ≠ .some '/') :
    (cs.foldl (fun p c => p.join ⟨c.text⟩) p).text.toList =
      p.text.toList ++ (cs.map (·.text.toList)).flatMap (['/'] ++ ·) := by
  induction cs generalizing p with
  | nil => simp
  | cons c cs ih =>
    have hc := hcs c List.mem_cons_self
    have hjoin := join_plain hc hp
    rw [if_neg hlast] at hjoin
    have hne : c.text.toList ≠ [] := fun h => by simpa [h, isIdle] using hc.not_idle
    rw [List.foldl_cons, ih (fun d hd => hcs d (List.mem_cons_of_mem _ hd)) (by rw [hjoin]; simp) ?_, hjoin]
    · simp
    · rw [hjoin, List.getLast?_append, List.getLast?_eq_some_getLast hne, Option.some_or, Ne, Option.some.injEq]
      exact fun h => hc.no_slash (h ▸ List.getLast_mem hne)

theorem toList_ofComponents {cs : List Component} (hcs : ∀ c ∈ cs, c.IsPlain) :
    (ofComponents cs).text.toList = ['/'].intercalate (cs.map (·.text.toList)) ∧
      (ofComponents (.root :: cs)).text.toList = '/' :: ['/'].intercalate (cs.map (·.text.toList)) := by
  cases cs with
  | nil => exact ⟨rfl, rfl⟩
  | cons c cs =>
    have hc := hcs c List.mem_cons_self
    have hrest (d : Component) (hd : d ∈ cs) : d.IsPlain := hcs d (List.mem_cons_of_mem _ hd)
    have hne : c.text.toList ≠ [] := fun h => by simpa [h, isIdle] using hc.not_idle
    have hlast : c.text.toList.getLast? ≠ .some '/' := fun h => hc.no_slash (List.mem_of_getLast? h)
    have hroot : ((⟨"/"⟩ : Path).join ⟨c.text⟩).text.toList = '/' :: c.text.toList := by
      rw [join_plain hc (by decide)]
      rfl
    rw [List.map_cons, intercalate_cons_eq]
    constructor
    · have hjoin : (⟨""⟩ : Path).join ⟨c.text⟩ = ⟨c.text⟩ := by simp [join]
      rw [ofComponents, List.foldl_cons, hjoin, foldl_join (p := ⟨c.text⟩) hrest hne hlast]
    · have hjoin : (⟨""⟩ : Path).join ⟨Component.root.text⟩ = ⟨"/"⟩ := by decide +kernel
      rw [ofComponents, List.foldl_cons, hjoin, List.foldl_cons, foldl_join hrest (by rw [hroot]; simp) ?_, hroot]
      · rfl
      · rw [hroot, List.getLast?_cons, List.getLast?_eq_some_getLast hne, Option.getD_some, Ne, Option.some.injEq]
        exact fun h => hc.no_slash (h ▸ List.getLast_mem hne)

theorem splitStart_intercalate {cs : List Component} (hcs : ∀ c ∈ cs, c.IsPlain) :
    splitStart (['/'].intercalate (cs.map (·.text.toList))) = ([], [], ['/'].intercalate (cs.map (·.text.toList))) := by
  cases cs with
  | nil => rfl
  | cons c cs =>
    have hc := hcs c List.mem_cons_self
    have hslash := hc.no_slash
    have hidle := hc.not_idle
    rw [List.map_cons, intercalate_cons_eq]
    generalize (cs.map (·.text.toList)).flatMap (['/'] ++ ·) = rest at *
    generalize c.text.toList = s at hslash hidle ⊢
    rcases s with _ | ⟨d, _ | ⟨e, s⟩⟩
    · simp [isIdle] at hidle
    · have hd : d ≠ '.' := by simpa [isIdle] using hidle
      have hd' : d ≠ '/' := fun h => hslash (by simp [h])
      simp [splitStart, hd, hd']
    · have hd : d ≠ '/' := fun h => hslash (by simp [h])
      have he : e ≠ '/' := fun h => hslash (by simp [h])
      simp [splitStart, hd, he]

theorem steps_intercalate {cs : List Component} (hcs : ∀ c ∈ cs, c.IsPlain) :
    steps (['/'].intercalate (cs.map (·.text.toList))) = cs := by
  cases cs with
  | nil => rfl
  | cons c cs =>
    have hplain (s : List Char) (hs : s ∈ (c :: cs).map (·.text.toList)) : '/' ∉ s ∧ isIdle s = false := by
      obtain ⟨d, hd, rfl⟩ := List.mem_map.1 hs
      exact ⟨(hcs d hd).no_slash, (hcs d hd).not_idle⟩
    have hsegments : segments (['/'].intercalate ((c :: cs).map (·.text.toList))) = (c :: cs).map (·.text.toList) :=
      segments_intercalate fun s hs => (hplain s hs).1
    have hkeep : ((c :: cs).map (·.text.toList)).filter (fun s => !isIdle s) = (c :: cs).map (·.text.toList) :=
      List.filter_eq_self.2 fun s hs => by rw [(hplain s hs).2]; rfl
    rw [steps, hsegments, hkeep, List.map_map]
    exact (List.map_congr_left fun d hd => (hcs d hd).step_text).trans (List.map_id _)

/-- Components that a normal path can have are read back as they were written. -/
theorem components_ofComponents {cs : List Component} (h : IsNormal cs) : (ofComponents cs).components = cs := by
  obtain ⟨rest, hrest, rfl | rfl⟩ := h
  · simp only [components, (toList_ofComponents hrest).1, splitStart_intercalate hrest, steps_intercalate hrest]
    rfl
  · simp only [components, (toList_ofComponents hrest).2, splitStart, steps_intercalate hrest]
    rfl

theorem components_normalize (p : Path) : p.normalize.components = p.components.foldl normalStep [] :=
  components_ofComponents (isNormal_components p)

/-- A path in normal form. -/
def IsNormalized (p : Path) : Prop := ∃ q : Path, p = q.normalize

/-- Normal paths that are the same are written the same. -/
theorem IsNormalized.same_iff {p q : Path} (hp : p.IsNormalized) (hq : q.IsNormalized) : p.same q = true ↔ p = q := by
  obtain ⟨p, rfl⟩ := hp
  obtain ⟨q, rfl⟩ := hq
  rw [same, beq_iff_eq, components_normalize, components_normalize]
  constructor
  · intro h
    rw [normalize, normalize, h]
  · intro h
    rw [← components_normalize, ← components_normalize, h]

end Path

end ThemeVars
