/-
Restricting a list of selectors. Whatever state the splitter is in, a marker
leaves it there, so that the list has the branches that it had.
`scope_restricted`: each of them keeps its blanks, begins with the root element
and carries the marker there, and to restrict the list again changes nothing.
-/
import Mathlib.Data.List.Forall2
import ThemeVars.Proofs.Text.Split
import ThemeVars.Proofs.Text.Trim
import ThemeVars.Scope.Annotation

namespace ThemeVars.Selector

open Text Text.Nesting

variable {branch marker token rest s t : List Char} {n : Nat}

/-! ## The token that selects the root element -/

/-- A small-letter text that selects the root element. -/
inductive IsRoot : List Char → Prop
  | html : IsRoot "html".toList
  | root {attributes : List Char} (h : afterAttributes? false attributes = .some []) : IsRoot (attributes ++ ":root".toList)

/-- Attribute selectors that are all closed are passed over before any text. -/
theorem afterAttributes?_append {inside : Bool} (h : afterAttributes? inside s = .some []) (t : List Char) :
    afterAttributes? inside (s ++ t) = afterAttributes? false t := by
  induction s generalizing inside with
  | nil =>
    cases inside with
    | true => cases h
    | false => rfl
  | cons c s ih =>
    cases inside with
    | true => exact ih h
    | false =>
      rw [afterAttributes?] at h
      rw [List.cons_append, afterAttributes?]
      split at h
      · rename_i hc
        rw [if_pos hc]
        exact ih h
      · cases h

theorem exists_attributes {inside : Bool} (h : afterAttributes? inside s = .some t) :
    ∃ attributes, s = attributes ++ t ∧ afterAttributes? inside attributes = .some [] := by
  induction s generalizing inside with
  | nil =>
    cases inside with
    | true => cases h
    | false =>
      cases h
      exact ⟨[], rfl, rfl⟩
  | cons c s ih =>
    cases inside with
    | true =>
      obtain ⟨attributes, rfl, ha⟩ := ih h
      exact ⟨c :: attributes, rfl, ha⟩
    | false =>
      rw [afterAttributes?] at h
      split at h
      · rename_i hc
        obtain ⟨attributes, rfl, ha⟩ := ih h
        exact ⟨c :: attributes, rfl, by rw [afterAttributes?, if_pos hc, ha]⟩
      · exact ⟨[], Option.some.inj h, rfl⟩

theorem head_attributes {c : Char} (h : afterAttributes? false (c :: s) = .some []) : c = '[' := by
  rw [afterAttributes?] at h
  split at h
  · rename_i hc
    exact beq_iff_eq.1 hc
  · cases h

/-- A root token does not begin with a blank, nor end with a backslash. -/
theorem IsRoot.ends (h : IsRoot s) : (∃ c cs, s = c :: cs ∧ isBlank c = false) ∧ ∃ cs c, s = cs ++ [c] ∧ c ≠ '\\' := by
  cases h with
  | html => exact ⟨⟨_, _, rfl, by decide⟩, "htm".toList, 'l', rfl, by decide⟩
  | @root attributes h =>
    refine ⟨?_, attributes ++ ":roo".toList, 't', by simp, by decide⟩
    cases attributes with
    | nil => exact ⟨_, _, rfl, by decide⟩
    | cons c attributes =>
      cases head_attributes h
      exact ⟨_, _, rfl, by decide⟩

/-- What is found is a root token that no name continues, whatever follows. -/
theorem rootLength?_eq_some : rootLength? branch = .some n ↔
    ∃ token rest, branch = token ++ rest ∧ token.length = n ∧ IsRoot (lower token) ∧
      (lower rest).head?.any continuesName = false := by
  unfold rootLength?
  simp only [Option.filter_eq_some_iff, Bool.not_eq_true']
  constructor
  · rintro ⟨hlength, hends⟩
    have hfound : ∃ T R, lower branch = T ++ R ∧ T.length = n ∧ IsRoot T := by
      split at hlength
      · rename_i hhtml
        obtain ⟨R, hR⟩ := List.isPrefixOf_iff_prefix.1 hhtml
        cases hlength
        exact ⟨_, R, hR.symm, rfl, .html⟩
      · split at hlength
        · cases hlength
        · rename_i rest hrest
          obtain ⟨attributes, hbranch, hattributes⟩ := exists_attributes hrest
          split at hlength
          · rename_i hroot
            obtain ⟨R, rfl⟩ := List.isPrefixOf_iff_prefix.1 hroot
            cases hlength
            refine ⟨attributes ++ ":root".toList, R, by simpa using hbranch, ?_, .root hattributes⟩
            simp [hbranch]
          · cases hlength
    obtain ⟨T, R, hbranch, rfl, hT⟩ := hfound
    refine ⟨branch.take T.length, branch.drop T.length, (List.take_append_drop _ _).symm, ?_, ?_, ?_⟩
    · have := congrArg List.length hbranch
      simp [lower] at this
      simp
      omega
    · rw [lower, List.map_take, ← lower, hbranch, List.take_left]
      exact hT
    · rw [lower, List.map_drop, ← lower]
      exact hends
  · rintro ⟨token, rest, rfl, rfl, htoken, hends⟩
    have hlower : lower (token ++ rest) = lower token ++ lower rest := List.map_append
    have hlen : (lower token).length = token.length := List.length_map _
    rw [hlower, ← hlen, List.drop_left]
    refine ⟨?_, hends⟩
    generalize lower token = T at htoken
    cases htoken with
    | html => rfl
    | @root attributes h =>
      have hhtml : "html".toList.isPrefixOf (attributes ++ ":root".toList ++ lower rest) = false := by
        cases attributes with
        | nil => rfl
        | cons c attributes =>
          cases head_attributes h
          rfl
      rw [hhtml, List.append_assoc, afterAttributes?_append h]
      simp [afterAttributes?]

/-! ## One branch -/

/-- The branch begins with the root element, and the marker, with double or
single quotes, is in its token or right after it. -/
def Carries (marker branch : List Char) : Prop :=
  ∃ n, rootLength? branch = .some n ∧
    ∃ m, (m = marker ∨ m = singleQuoted marker) ∧ (m <:+: branch.take n ∨ m <+: branch.drop n)

/-- What a branch is restricted to: itself, itself with the marker after the
root element, or itself under a root of its own that has the marker. -/
inductive Marked (marker branch : List Char) : List Char → Prop
  | kept : Marked marker branch branch
  | after {token rest : List Char} (hbranch : branch = token ++ rest) (htoken : IsRoot (lower token)) :
    Marked marker branch (token ++ marker ++ rest)
  | under : Marked marker branch (":root".toList ++ marker ++ ' ' :: branch)

theorem scopeBranch_of_carries (h : Carries marker branch) : scopeBranch marker branch = branch := by
  obtain ⟨n, hn, m, hm, hcarries⟩ := h
  unfold scopeBranch
  simp only [hn]
  refine if_pos ?_
  have hhere : (occurs m (branch.take n) || m.isPrefixOf (branch.drop n)) = true := by
    rwa [Bool.or_eq_true, occurs_iff, List.isPrefixOf_iff_prefix]
  rcases hm with rfl | rfl
  · rw [hhere, Bool.true_or]
  · rw [hhere, Bool.or_true]

/-- A marker with its bracket does not continue the name of the root element. -/
theorem scopeBranch_marked (hm : marker.head? = .some '[') (branch : List Char) :
    Marked marker branch (scopeBranch marker branch) ∧ Carries marker (scopeBranch marker branch) := by
  obtain ⟨cs, rfl⟩ : ∃ cs, marker = '[' :: cs := List.head?_eq_some_iff.1 hm
  have hends (rest : List Char) : (lower ('[' :: cs ++ rest)).head?.any continuesName = false := rfl
  unfold scopeBranch
  split
  · refine ⟨.under, 5, ?_, _, .inl rfl, .inr (List.prefix_append _ (' ' :: branch))⟩
    have hroot : IsRoot ([] ++ ":root".toList) := .root rfl
    exact rootLength?_eq_some.2 ⟨":root".toList, _, List.append_assoc .., rfl, hroot, hends _⟩
  · rename_i n hn
    dsimp only
    split
    · rename_i hcarries
      refine ⟨.kept, n, hn, ?_⟩
      simp only [Bool.or_eq_true, occurs_iff, List.isPrefixOf_iff_prefix] at hcarries
      rcases hcarries with h | h
      · exact ⟨_, .inl rfl, h⟩
      · exact ⟨_, .inr rfl, h⟩
    · obtain ⟨token, rest, rfl, rfl, htoken, -⟩ := rootLength?_eq_some.1 hn
      rw [List.take_left, List.drop_left]
      refine ⟨.after rfl htoken, token.length, ?_, _, .inl rfl, .inr ?_⟩
      · exact rootLength?_eq_some.2 ⟨token, _, List.append_assoc .., rfl, htoken, hends _⟩
      · rw [List.append_assoc, List.drop_left]
        exact List.prefix_append ('[' :: cs) rest

/-! ## What the splitter sees -/

/-- The splitter is after the marker where it was before it. -/
structure Unseen (marker : List Char) : Prop where
  after : ∀ n : Nesting, n.escaped = false → n.after marker = n
  comma : ',' ∉ marker

theorem Unseen.uncut (h : Unseen marker) (n : Nesting) : n.Uncut ',' marker := uncut_of_not_mem n h.comma

theorem after_blanks (hs : ∀ c ∈ s, isBlank c = true) : ({} : Nesting).after s = {} ∧ ({} : Nesting).Uncut ',' s := by
  have hplain : ∀ c ∈ s, isNesting c = false ∧ c ≠ ',' := fun c hc => isNesting_of_kind (hs c hc) rfl
  exact ⟨after_of_not_nesting rfl fun c hc => (hplain c hc).1, uncut_of_not_mem _ fun hmem => (hplain _ hmem).2 rfl⟩

/-- What closes with the text it is put in, and is cut no more than that. -/
def Alike (s t : List Char) : Prop :=
  ({} : Nesting).after t = ({} : Nesting).after s ∧ (({} : Nesting).Uncut ',' s → ({} : Nesting).Uncut ',' t)

theorem IsRoot.escaped_after (h : IsRoot (lower token)) (n : Nesting) : (n.after token).escaped = false := by
  obtain ⟨-, cs, c, hlower, hc⟩ := h.ends
  obtain ⟨front, last, rfl, -, hlast⟩ := List.map_eq_append_iff.1 hlower
  obtain ⟨d, rfl, hd⟩ := List.map_eq_singleton_iff.1 hlast
  rw [after_append]
  refine escaped_step _ ?_
  rintro rfl
  exact hc (hd ▸ by decide)

theorem Marked.alike (hm : Unseen marker) (h : Marked marker branch s) : Alike branch s := by
  cases h with
  | kept => exact ⟨rfl, id⟩
  | @after token rest hbranch htoken =>
    subst hbranch
    have hafter := hm.after _ (htoken.escaped_after {})
    refine ⟨by simp only [after_append, hafter], fun h => ?_⟩
    obtain ⟨htoken, hrest⟩ := uncut_append.1 h
    rw [List.append_assoc]
    exact uncut_append.2 ⟨htoken, uncut_append.2 ⟨hm.uncut _, by rwa [hafter]⟩⟩
  | under =>
    have hafter := hm.after {} rfl
    have hroot : ({} : Nesting).after ":root".toList = {} := by decide
    have hspace : ({} : Nesting).step ' ' = {} := by decide
    refine ⟨by simp only [after_append, hroot, hafter, after_cons, hspace], fun h => ?_⟩
    rw [List.append_assoc]
    refine uncut_append.2 ⟨uncut_of_not_mem _ (by decide), uncut_append.2 ⟨hm.uncut _, ?_⟩⟩
    rw [hroot, hafter]
    exact ⟨by decide, by rwa [hspace]⟩

/-! ## A branch between its blanks -/

theorem head?_trimStart {c : Char} (h : (trimStart s).head? = .some c) : isBlank c = false := by
  have := List.head?_dropWhile_not isBlank s
  rwa [← trimStart, h] at this

/-- No blanks come before a branch with the marker. -/
theorem Marked.head? (h : Marked marker (trimStart s) t) {c : Char} (hc : t.head? = .some c) : isBlank c = false := by
  generalize hbranch : trimStart s = branch at h
  cases h with
  | kept => exact head?_trimStart (hbranch ▸ hc)
  | @after token rest hsplit htoken =>
    obtain ⟨⟨d, ds, hlower, -⟩, -⟩ := htoken.ends
    obtain ⟨e, es, rfl, -, -⟩ := List.map_eq_cons_iff.1 hlower
    cases hc
    refine head?_trimStart (s := s) ?_
    rw [hbranch, hsplit]
    rfl
  | under =>
    cases hc
    decide

/-- What a piece of a list is restricted to. -/
structure Restricted (marker piece piece' : List Char) : Prop where
  blanks : piece'.takeWhile isBlank = piece.takeWhile isBlank
  marked : Marked marker (trimStart piece) (trimStart piece')
  carries : Carries marker (trimStart piece')

theorem scopePiece_parts (hm : marker.head? = .some '[') (piece : List Char) :
    (scopePiece marker piece).takeWhile isBlank = piece.takeWhile isBlank ∧
      trimStart (scopePiece marker piece) = scopeBranch marker (trimStart piece) := by
  have hblanks : ∀ c ∈ piece.takeWhile isBlank, isBlank c = true := fun c => List.mem_takeWhile_imp
  have hhead (c : Char) := (scopeBranch_marked hm (trimStart piece)).1.head? (c := c)
  rw [scopePiece]
  generalize scopeBranch marker (trimStart piece) = branch at hhead ⊢
  rw [trimStart, List.takeWhile_append_of_pos hblanks, List.dropWhile_append_of_pos hblanks]
  cases branch with
  | nil => exact ⟨List.append_nil _, rfl⟩
  | cons c cs =>
    have hc := hhead c rfl
    rw [List.takeWhile_cons_of_neg (by simp [hc]), List.dropWhile_cons_of_neg (by simp [hc])]
    exact ⟨List.append_nil _, rfl⟩

theorem scopePiece_restricted (hm : marker.head? = .some '[') (piece : List Char) :
    Restricted marker piece (scopePiece marker piece) := by
  obtain ⟨hblanks, hbranch⟩ := scopePiece_parts hm piece
  obtain ⟨hmarked, hcarries⟩ := scopeBranch_marked hm (trimStart piece)
  exact ⟨hblanks, hbranch ▸ hmarked, hbranch ▸ hcarries⟩

theorem scopePiece_twice (hm : marker.head? = .some '[') (piece : List Char) :
    scopePiece marker (scopePiece marker piece) = scopePiece marker piece := by
  obtain ⟨hblanks, hbranch⟩ := scopePiece_parts hm piece
  have hcarries := (scopeBranch_marked hm (trimStart piece)).2
  rw [scopePiece, hblanks, hbranch, scopeBranch_of_carries hcarries, scopePiece]

theorem scopePiece_alike (hm : Unseen marker) (hhead : marker.head? = .some '[') (piece : List Char) :
    Alike piece (scopePiece marker piece) := by
  obtain ⟨hafter, huncut⟩ := after_blanks (s := piece.takeWhile isBlank) fun c => List.mem_takeWhile_imp
  obtain ⟨hsame, hkeeps⟩ := (scopeBranch_marked hhead (trimStart piece)).1.alike hm
  have hpiece : piece = piece.takeWhile isBlank ++ trimStart piece := List.takeWhile_append_dropWhile.symm
  constructor
  · conv_rhs => rw [hpiece]
    rw [scopePiece, after_append, after_append, hafter, hsame]
  · intro h
    rw [hpiece, uncut_append, hafter] at h
    rw [scopePiece, uncut_append, hafter]
    exact ⟨huncut, hkeeps h.2⟩

/-! ## A list of selectors -/

/-- The names in a marker open and close nothing, so that its own bracket and
quotes are closed in it. -/
theorem unseen_marker {attr theme : String} (h : ∀ c ∈ (attr ++ theme).toList, isNesting c = false ∧ c ≠ ',') :
    Unseen (Scope.marker attr theme).toList := by
  simp only [String.toList_append, List.forall_mem_append] at h
  have hmarker : (Scope.marker attr theme).toList =
      '[' :: (attr.toList ++ '=' :: '"' :: (theme.toList ++ ['"', ']'])) := by simp [Scope.marker]
  rw [hmarker]
  refine ⟨fun n hn => ?_, ?_⟩
  · have hattr : (n.step '[').after attr.toList = n.step '[' :=
      after_of_not_nesting (escaped_step n (by decide)) fun c hc => (h.1 c hc).1
    have htheme (k : Nesting) : (k.step '"').after theme.toList = k.step '"' :=
      after_of_not_nesting (escaped_step k (by decide)) fun c hc => (h.2 c hc).1
    simp only [after_cons, after_append, hattr, htheme, after_nil]
    obtain ⟨depth, quote, escaped⟩ := n
    obtain rfl : escaped = false := hn
    rcases quote with _ | q
    · rfl
    · by_cases hq : q = '"'
      · subst hq
        rfl
      · simp [step, Text.isQuote, hq]
  · have hattr : ',' ∉ attr.toList := fun hmem => (h.1 _ hmem).2 rfl
    have htheme : ',' ∉ theme.toList := fun hmem => (h.2 _ hmem).2 rfl
    simp [hattr, htheme]

/-- A list of selectors keeps its branches, each with its blanks, and each
carries the marker. Restricting the list again changes nothing. -/
theorem scope_restricted {attr theme : String} (h : ∀ c ∈ (attr ++ theme).toList, isNesting c = false ∧ c ≠ ',')
    (selector : String) :
    List.Forall₂ (Restricted (Scope.marker attr theme).toList) (splitTopLevel ',' selector.toList)
        (splitTopLevel ',' (scope (Scope.marker attr theme) selector).toList) ∧
      scope (Scope.marker attr theme) (scope (Scope.marker attr theme) selector) =
        scope (Scope.marker attr theme) selector := by
  have hunseen := unseen_marker h
  have hhead : (Scope.marker attr theme).toList.head? = .some '[' := by simp [Scope.marker]
  generalize Scope.marker attr theme = marker at hunseen hhead ⊢
  have hpieces : splitTopLevel ',' (scope marker selector).toList =
      (splitTopLevel ',' selector.toList).map (scopePiece marker.toList) := by
    rw [scope, String.toList_ofList]
    refine splitTopLevel_intercalate rfl ((separable_splitTopLevel ',' _).map fun piece huncut => ?_)
    obtain ⟨hafter, hkeeps⟩ := scopePiece_alike hunseen hhead piece
    exact ⟨hkeeps huncut, hafter⟩
  constructor
  · rw [hpieces, List.forall₂_map_right_iff, List.forall₂_same]
    exact fun piece _ => scopePiece_restricted hhead piece
  · conv_lhs => rw [scope]
    simp only [hpieces, List.map_map]
    rw [scope]
    congr 3
    funext piece
    exact scopePiece_twice hhead piece

/-- The string in the last branch is not closed. -/
theorem scope_restricted_unclosed :
    (∀ c ∈ ("data-theme" ++ "dark").toList, isNesting c = false ∧ c ≠ ',') ∧
      scope (Scope.marker "data-theme" "dark") ".a , HTML.b, x[y=')\", z" =
        ":root[data-theme=\"dark\"] .a , HTML[data-theme=\"dark\"].b, :root[data-theme=\"dark\"] x[y=')\", z" ∧
      List.Forall₂ (Restricted (Scope.marker "data-theme" "dark").toList) (splitTopLevel ',' ".a , HTML.b, x[y=')\", z".toList)
        (splitTopLevel ',' (scope (Scope.marker "data-theme" "dark") ".a , HTML.b, x[y=')\", z").toList) ∧
      scope (Scope.marker "data-theme" "dark") (scope (Scope.marker "data-theme" "dark") ".a , HTML.b, x[y=')\", z") =
        scope (Scope.marker "data-theme" "dark") ".a , HTML.b, x[y=')\", z" := by
  have hall : ("data-theme" ++ "dark").toList.all continuesName = true := by decide
  have h : ∀ c ∈ ("data-theme" ++ "dark").toList, isNesting c = false ∧ c ≠ ',' :=
    fun c hc => isNesting_of_kind (List.all_eq_true.1 hall c hc) rfl
  exact ⟨h, by decide +kernel, scope_restricted h _⟩

end ThemeVars.Selector
