/-
Keyframes and the animations that name them. `annotate_keyframes`: keyframes that
are written as they are read get the theme's name, and the animations of the
rules follow them. `annotate_escaped`: a name that is written with an escape is
taken for another, and its animations do not follow.
-/
import ThemeVars.Proofs.Outcome
import ThemeVars.Proofs.Scope.Naming
import ThemeVars.Scope.Annotation
import ThemeVars.Sheet.Parser

namespace ThemeVars

namespace Node

/-! ## Keyframes and animations of a sheet -/

mutual

/-- The parameters of the keyframes in the node, in conditional at-rules too. -/
def keyframes : Node → List String
  | .statement name params _ _ _ _ => if unprefixed name == "keyframes" then [params] else []
  | .group name params children _ _ =>
    if unprefixed name == "keyframes" then [params]
    else if Scope.conditionalNames.contains (unprefixed name) then keyframesAll children
    else []
  | _ => []

def keyframesAll : List Node → List String
  | [] => []
  | node :: rest => node.keyframes ++ keyframesAll rest

end

/-- The value of a declaration that names animations. -/
def animation? : Node → Option String
  | .declaration property value _ _ => if Scope.isAnimationProperty property then .some value else .none
  | _ => .none

mutual

/-- The values that name animations directly in the rules that are restricted. -/
def animations : Node → List String
  | .rule _ children _ => children.filterMap animation?
  | .group name _ children _ _ =>
    if Scope.conditionalNames.contains (unprefixed name) then animationsAll children else []
  | _ => []

def animationsAll : List Node → List String
  | [] => []
  | node :: rest => node.animations ++ animationsAll rest

end

end Node

open Text

/-! ## Names that go on -/

/-- All characters can continue a name. -/
def IsSuffix (x : List Char) : Prop := ∀ c ∈ x, isNameChar c = true ∧ c ≠ '\x00'

instance (x : List Char) : Decidable (IsSuffix x) :=
  decidable_of_iff (x.all fun c => decide (isNameChar c = true ∧ c ≠ '\x00')) (by simp [IsSuffix])

variable {x y : List Char}

theorem isPlain_suffix (h : IsSuffix y) : IsPlain ('-' :: y) := by
  intro c hc
  rcases List.mem_cons.1 hc with rfl | hc
  · decide
  · obtain ⟨hname, hnull⟩ := h c hc
    refine ⟨?_, hnull⟩
    rintro rfl
    cases hname

/-- A suffix and the hyphen before it are no quotes and no newlines. -/
theorem isStringChar_suffix {q c : Char} (h : IsSuffix y) (hq : isQuote q = true) (hc : c ∈ '-' :: y) :
    isStringChar q c = true := by
  have hname : isNameChar c = true := by
    rcases List.mem_cons.1 hc with rfl | hc
    · rfl
    · exact (h c hc).1
  have hne {d : Char} (hd : isNameChar d = false) : c ≠ d := by
    rintro rfl
    rw [hname] at hd
    cases hd
  have hquote : c ≠ q := by
    rw [isQuote, Bool.or_eq_true, beq_iff_eq, beq_iff_eq] at hq
    rcases hq with rfl | rfl <;> exact hne rfl
  simp [isStringChar, isNewline, hquote, hne (d := '\n') rfl, hne (d := '\x0c') rfl, hne (d := '\r') rfl]

theorem FitsName.suffix (hx : FitsName x) (h : IsSuffix y) : FitsName (x ++ '-' :: y) where
  plain := List.forall_mem_append.2 ⟨hx.plain, isPlain_suffix h⟩
  chars := by
    refine List.forall_mem_append.2 ⟨hx.chars, List.forall_mem_cons.2 ⟨rfl, fun c hc => (h c hc).1⟩⟩
  starts := hx.starts_append _
  ne_dashes := by
    intro heq
    have hstarts := hx.starts
    match x, heq with
    | [], _ => cases hstarts
    | [c], heq =>
      obtain ⟨rfl, -⟩ := List.cons.inj heq
      cases hstarts
    | [c, d], heq => cases congrArg List.length heq

theorem FitsQuotes.suffix {q : Char} (hx : FitsQuotes q x) (h : IsSuffix y) (hq : isQuote q = true) :
    FitsQuotes q (x ++ '-' :: y) where
  plain := List.forall_mem_append.2 ⟨hx.plain, isPlain_suffix h⟩
  chars := List.forall_mem_append.2 ⟨hx.chars, fun _ => isStringChar_suffix h hq⟩

namespace Scope

open Animation

/-! ## Names of keyframes -/

/-- What the parameters of keyframes name: an identifier or a string, with space
and comments around it. -/
def keyframesName? (params : String) : Option String :=
  match (lexemes params.toList).filter (fun l => !l.token.isFiller) with
  | [l] => l.token.name?
  | _ => .none

/-- What the parameters are taken to name: their text without blanks and quotes
around it. -/
def rawName? (params : String) : Option String :=
  if params.trimmed.isEmpty then .none else .some (unquote params.trimmed)

/-- The name is one that no theme renames. -/
def isReserved (name : String) : Bool := reservedNames.any fun r => r.equalsIgnoringCase name

/-- The name that keyframes have under the theme. -/
def themed (theme name : String) : String := if isReserved name then name else name ++ "-" ++ theme

/-- The parameters are read as the name and, but for blanks, are written as it
between these quotes, or without. -/
structure Verbatim (params : String) (quotes : List Char) (name : String) : Prop where
  read : keyframesName? params = .some name
  written : params.trimmed.toList = quotes ++ name.toList ++ quotes
  fits : quotes = [] ∧ FitsName name.toList ∨ ∃ q, isQuote q = true ∧ quotes = [q] ∧ FitsQuotes q name.toList

/-- The names that keyframes declare. -/
def declared (nodes : List Node) : List String := (Node.keyframesAll nodes).filterMap keyframesName?

/-- The names that keyframes are taken to declare. -/
def taken (nodes : List Node) : List String := (Node.keyframesAll nodes).filterMap rawName?

variable {theme params name k : String} {quotes : List Char}

theorem keyframesName?_reads {x : List Char} {t : Token} (h : Reads x [] t) (ht : t.isFiller = false) :
    keyframesName? (String.ofList x) = t.name? := by
  have hlexemes : lexemes x = [⟨t, x, 0⟩] := by
    have hreads : lexemesFrom 0 0 (x ++ []) = ⟨t, x, 0⟩ :: lexemesFrom (0 + x.length) 0 [] := lexemesFrom_reads h
    rw [List.append_nil] at hreads
    exact hreads
  simp [keyframesName?, hlexemes, ht]

/-! ## Reserved names -/

theorem isReserved_iff : isReserved name = true ↔ ∃ r ∈ reservedNames, lower r.toList = lower name.toList := by
  simp [isReserved, String.equalsIgnoringCase, String.lowered, String.ofList_inj]

/-- What stands before a hyphen in a reserved name is reserved. -/
theorem isReserved_front {suffix : String} (h : isReserved (name ++ "-" ++ suffix) = true) : isReserved name = true := by
  have hfront : ∀ r ∈ reservedNames, ∀ i < (lower r.toList).length, (lower r.toList)[i]? = .some '-' →
      ∃ r' ∈ reservedNames, lower r'.toList = (lower r.toList).take i := by
    decide
  obtain ⟨r, hr, hlower⟩ := isReserved_iff.1 h
  have hlower : lower r.toList = lower name.toList ++ '-' :: lower suffix.toList := by
    rw [hlower, String.toList_append, String.toList_append, lower, List.map_append, List.map_append, List.append_assoc]
    rfl
  obtain ⟨r', hr', hfound⟩ := hfront r hr (lower name.toList).length (by simp [hlower]) (by simp [hlower])
  rw [hlower, List.take_left] at hfound
  exact isReserved_iff.2 ⟨r', hr', hfound⟩

/-- Keyframes with different names have different names under the theme. -/
theorem themed_injective (theme : String) : Function.Injective (themed theme) := by
  intro a b hab
  unfold themed at hab
  split at hab <;> rename_i ha <;> split at hab <;> rename_i hb
  · exact hab
  · exact absurd (isReserved_front (hab ▸ ha)) hb
  · exact absurd (isReserved_front (hab ▸ hb)) ha
  · rwa [String.append_left_inj, String.append_left_inj] at hab

/-! ## Quotes -/

theorem unquote_quoted {q : Char} (hq : isQuote q = true) (x : List Char) :
    unquote (String.ofList (q :: (x ++ [q]))) = String.ofList x := by
  have hq : Text.isQuote q = true := hq
  simp [unquote, hq]

/-- What does not end with a quote has none to lose. -/
theorem unquote_of_getLast {s : String} (h : ∀ c, s.toList.getLast? = .some c → isQuote c = false) : unquote s = s := by
  unfold unquote
  split
  · rename_i c rest hs
    refine if_neg fun hc => ?_
    simp only [Bool.and_eq_true, beq_iff_eq] at hc
    obtain ⟨hquote, hlast⟩ := hc
    have hc := h c (by rw [hs, List.getLast?_cons, hlast]; rfl)
    rw [show Text.isQuote c = isQuote c from rfl, hc] at hquote
    cases hquote
  · rfl

/-- The quotes that a text loses. -/
theorem exists_quotes (s : String) :
    ∃ quotes, s.toList = quotes ++ (unquote s).toList ++ quotes ∧
      (quotes = [] ∨ ∃ q, isQuote q = true ∧ quotes = [q]) := by
  by_cases h : unquote s = s
  · exact ⟨[], by simp [h], .inl rfl⟩
  · unfold unquote at h ⊢
    split at h
    · rename_i c rest hs
      split at h
      · rename_i hc
        simp only [Bool.and_eq_true, beq_iff_eq] at hc
        obtain ⟨hquote, hlast⟩ := hc
        obtain ⟨x, rfl⟩ := List.getLast?_eq_some_iff.1 hlast
        exact ⟨[c], by simp [hs, hquote], .inr ⟨c, hquote, rfl⟩⟩
      · exact absurd rfl h
    · exact absurd rfl h

/-- The quotes around a name that goes on are lost as those around the name. -/
theorem unquote_suffix {x y : List Char} (hy : IsSuffix y) (hquotes : quotes = [] ∨ ∃ q, isQuote q = true ∧ quotes = [q]) :
    unquote (String.ofList (quotes ++ (x ++ '-' :: y) ++ quotes)) = String.ofList (x ++ '-' :: y) := by
  rcases hquotes with rfl | ⟨q, hq, rfl⟩
  · rw [List.nil_append, List.append_nil]
    refine unquote_of_getLast fun c hc => ?_
    rw [String.toList_ofList, List.getLast?_append_of_ne_nil _ (List.cons_ne_nil _ _)] at hc
    by_contra hquote
    -- no character stands in a string between itself
    have hchar := isStringChar_suffix hy (by simpa using hquote) (List.mem_of_getLast? hc)
    simp [isStringChar] at hchar
  · exact unquote_quoted hq _

/-! ## The renames -/

/-- The parameters of keyframes under the theme. -/
def newParams (theme params : String) : String := ((newKeyframes? params theme).map (·.2)).getD params

/-- The name that the parameters are taken to declare, and the theme's, unless it
is reserved. -/
def entryOf (theme params : String) : Option (String × String) :=
  ((rawName? params).filter fun name => !isReserved name).map fun name => (name, themed theme name)

/-- The new names of the keyframes in the nodes, the latest first. -/
def renames (theme : String) (nodes : List Node) : Renaming :=
  ((Node.keyframesAll nodes).filterMap (entryOf theme)).reverse

theorem newKeyframes?_of_quotes (hwritten : params.trimmed.toList = quotes ++ name.toList ++ quotes)
    (hquotes : quotes = [] ∨ ∃ q, isQuote q = true ∧ quotes = [q]) (hunquote : unquote params.trimmed = name)
    (hne : params.trimmed.isEmpty = false) (hname : isReserved name = false) :
    newKeyframes? params theme =
      .some (params.trimmed, String.ofList (quotes ++ (name.toList ++ '-' :: theme.toList) ++ quotes)) := by
  have hreserved : (reservedNames.any fun r => r.equalsIgnoringCase name) = false := hname
  simp only [newKeyframes?, hne, hunquote, hreserved, Bool.false_eq_true, if_false]
  have hlength : params.trimmed.length = quotes.length + name.length + quotes.length := by
    rw [← String.length_toList, hwritten, List.length_append, List.length_append, String.length_toList]
  rcases hquotes with rfl | ⟨q, -, rfl⟩
  · rw [if_pos (by simp [hlength])]
    refine congrArg Option.some (Prod.ext rfl (String.toList_inj.1 ?_))
    simp
  · rw [if_neg (by simp only [hlength, List.length_singleton, beq_iff_eq]; omega)]
    refine congrArg Option.some (Prod.ext rfl (String.toList_inj.1 ?_))
    simp [hwritten]

/-- What is put into the renames is the name without quotes, and its new name. -/
theorem renameParams_eq (htheme : IsSuffix theme.toList) (params : String) (R : Renaming) :
    renameParams theme params R = (newParams theme params, (entryOf theme params).toList ++ R) := by
  by_cases hne : params.trimmed.isEmpty = true
  · simp [renameParams, newParams, entryOf, rawName?, newKeyframes?, hne]
  rw [Bool.not_eq_true] at hne
  obtain ⟨quotes, hwritten, hquotes⟩ := exists_quotes params.trimmed
  cases hname : isReserved (unquote params.trimmed) with
  | true =>
    have hreserved : (reservedNames.any fun r => r.equalsIgnoringCase (unquote params.trimmed)) = true := hname
    simp [renameParams, newParams, entryOf, rawName?, newKeyframes?, hne, hname, hreserved]
  | false =>
    have hnew : newKeyframes? params theme = _ := newKeyframes?_of_quotes hwritten hquotes rfl hne hname
    have hunquote := unquote_suffix (x := (unquote params.trimmed).toList) htheme hquotes
    have hthemed : String.ofList ((unquote params.trimmed).toList ++ '-' :: theme.toList) = themed theme (unquote params.trimmed) := by
      simp [themed, hname, ← String.toList_inj]
    simp only [renameParams, newParams, entryOf, rawName?, hnew, hunquote, hthemed, hne]
    simp [hname, Option.filter]

theorem entryOf_eq_some {a b : String} :
    entryOf theme params = .some (a, b) ↔ rawName? params = .some a ∧ isReserved a = false ∧ b = themed theme a := by
  unfold entryOf
  constructor
  · intro h
    obtain ⟨name, hname, heq⟩ := Option.map_eq_some_iff.1 h
    obtain ⟨hraw, hreserved⟩ := Option.filter_eq_some_iff.1 hname
    cases heq
    exact ⟨hraw, by simpa using hreserved, rfl⟩
  · rintro ⟨hraw, hreserved, rfl⟩
    simp [hraw, hreserved, Option.filter]

theorem mem_renames {nodes : List Node} {a b : String} :
    (a, b) ∈ renames theme nodes ↔ a ∈ taken nodes ∧ isReserved a = false ∧ b = themed theme a := by
  simp only [renames, taken, List.mem_reverse, List.mem_filterMap, entryOf_eq_some]
  exact ⟨fun ⟨params, hp, hraw, hab⟩ => ⟨⟨params, hp, hraw⟩, hab⟩, fun ⟨⟨params, hp, hraw⟩, hab⟩ => ⟨params, hp, hraw, hab⟩⟩

/-- The new name of keyframes is the theme's, if some are taken to have the name. -/
theorem find?_renames (theme : String) (nodes : List Node) (k : String) :
    (find? (renames theme nodes) k).getD k = if k ∈ taken nodes then themed theme k else k := by
  rw [find?]
  cases hfound : (renames theme nodes).find? (·.1 == k) with
  | some entry =>
    obtain ⟨a, b⟩ := entry
    obtain rfl : a = k := by simpa using List.find?_some hfound
    obtain ⟨htaken, -, rfl⟩ := mem_renames.1 (List.mem_of_find?_eq_some hfound)
    simp [htaken]
  | none =>
    have hnone (htaken : k ∈ taken nodes) : isReserved k = true := by
      by_contra hname
      have hentry := List.find?_eq_none.1 hfound _ (mem_renames.2 ⟨htaken, by simpa using hname, rfl⟩)
      simp at hentry
    split
    · rename_i htaken
      simp [themed, hnone htaken]
    · rfl

/-! ## The nodes -/

mutual

/-- Keyframes get their new parameters, and their entries go before those that
there are. -/
theorem renameNode_spec (htheme : IsSuffix theme.toList) (R : Renaming) (node : Node) :
    (renameNode theme R node).1.keyframes = node.keyframes.map (newParams theme) ∧
      (renameNode theme R node).1.animations = node.animations ∧
      (renameNode theme R node).2 = (node.keyframes.filterMap (entryOf theme)).reverse ++ R := by
  have hentry (params : String) : (entryOf theme params).toList = ([params].filterMap (entryOf theme)).reverse := by
    rw [List.filterMap_cons]
    cases entryOf theme params <;> rfl
  cases node with
  | statement name params before afterName between semicolon =>
    cases hname : Node.unprefixed name == "keyframes" <;>
      simp [renameNode, renameParams_eq htheme, Node.keyframes, Node.animations, hname, hentry]
  | group name params children spacing afterName =>
    obtain ⟨hkeyframes, hanimations, hrenames⟩ := renameNodes_spec htheme R children
    cases hname : Node.unprefixed name == "keyframes" with
    | true => simp [renameNode, renameParams_eq htheme, Node.keyframes, Node.animations, hname, hentry]
    | false =>
      cases hgroup : conditionalNames.contains (Node.unprefixed name) <;>
        simp only [renameNode, Node.keyframes, Node.animations, hname, hgroup, hkeyframes, hanimations, hrenames,
          Bool.false_eq_true, if_true, if_false] <;>
        simp
  | rule => simp [renameNode, Node.keyframes]
  | declaration => simp [renameNode, Node.keyframes]
  | comment => simp [renameNode, Node.keyframes]

theorem renameNodes_spec (htheme : IsSuffix theme.toList) (R : Renaming) (nodes : List Node) :
    Node.keyframesAll (renameNodes theme R nodes).1 = (Node.keyframesAll nodes).map (newParams theme) ∧
      Node.animationsAll (renameNodes theme R nodes).1 = Node.animationsAll nodes ∧
      (renameNodes theme R nodes).2 = ((Node.keyframesAll nodes).filterMap (entryOf theme)).reverse ++ R := by
  cases nodes with
  | nil => exact ⟨rfl, rfl, rfl⟩
  | cons node rest =>
    obtain ⟨hkeyframes, hanimations, hrenames⟩ := renameNode_spec htheme R node
    obtain ⟨hkeyframes', hanimations', hrenames'⟩ := renameNodes_spec htheme (renameNode theme R node).2 rest
    simp only [renameNodes, Node.keyframesAll, Node.animationsAll, hkeyframes, hkeyframes', hanimations, hanimations', hrenames']
    rw [hrenames]
    simp

end

/-- An animation's value as the rules that are restricted get it. -/
def renamedValue (R : Renaming) (value : String) : String := if R.isEmpty then value else rename R value

theorem animations_renamed (R : Renaming) (children : List Node) :
    (if R.isEmpty then children else children.map (renameDeclaration R)).filterMap Node.animation? =
      (children.filterMap Node.animation?).map (renamedValue R) := by
  cases hR : R.isEmpty with
  | true =>
    have hsame : renamedValue R = id := funext fun value => if_pos hR
    simp [hsame]
  | false =>
    have hnode (node : Node) : (renameDeclaration R node).animation? = node.animation?.map (renamedValue R) := by
      cases node with
      | declaration property value spacing semicolon =>
        cases hproperty : isAnimationProperty property <;>
          simp [renameDeclaration, Node.animation?, renamedValue, hR, hproperty]
      | _ => rfl
    simp [List.filterMap_map, List.map_filterMap, hnode]

mutual

/-- Where rules are restricted keyframes stay, and animations get the new names. -/
theorem scopeNode_spec (marker : String) (R : Renaming) (node : Node) :
    (scopeNode marker R node).keyframes = node.keyframes ∧
      (scopeNode marker R node).animations = node.animations.map (renamedValue R) := by
  cases node with
  | rule selector children spacing => exact ⟨rfl, animations_renamed R children⟩
  | group name params children spacing afterName =>
    obtain ⟨hkeyframes, hanimations⟩ := scopeNodes_spec marker R children
    cases hgroup : conditionalNames.contains (Node.unprefixed name) <;>
      simp only [scopeNode, Node.keyframes, Node.animations, hgroup, hkeyframes, hanimations, Bool.false_eq_true, if_true,
        if_false, List.map_nil, and_self]
  | declaration => exact ⟨rfl, rfl⟩
  | statement => exact ⟨rfl, rfl⟩
  | comment => exact ⟨rfl, rfl⟩

theorem scopeNodes_spec (marker : String) (R : Renaming) (nodes : List Node) :
    Node.keyframesAll (scopeNodes marker R nodes) = Node.keyframesAll nodes ∧
      Node.animationsAll (scopeNodes marker R nodes) = (Node.animationsAll nodes).map (renamedValue R) := by
  cases nodes with
  | nil => exact ⟨rfl, rfl⟩
  | cons node rest =>
    obtain ⟨hkeyframes, hanimations⟩ := scopeNode_spec marker R node
    obtain ⟨hkeyframes', hanimations'⟩ := scopeNodes_spec marker R rest
    simp [scopeNodes, Node.keyframesAll, Node.animationsAll, hkeyframes, hkeyframes', hanimations, hanimations']

end

/-! ## Keyframes that are written as they are read -/

section Verbatim

variable (h : Verbatim params quotes name)
include h

theorem Verbatim.unquote_eq : unquote params.trimmed = name := by
  have hwritten := h.written
  rcases h.fits with ⟨rfl, hfits⟩ | ⟨q, hq, rfl, -⟩
  · rw [List.nil_append, List.append_nil, String.toList_inj] at hwritten
    rw [hwritten]
    refine unquote_of_getLast fun c hc => ?_
    have hname := hfits.chars c (List.mem_of_getLast? hc)
    by_contra hquote
    rw [Bool.not_eq_false, isQuote, Bool.or_eq_true, beq_iff_eq, beq_iff_eq] at hquote
    rcases hquote with rfl | rfl <;> cases hname
  · have htrimmed : params.trimmed = String.ofList (q :: (name.toList ++ [q])) := by
      rw [← String.toList_inj, hwritten, String.toList_ofList]
      rfl
    rw [htrimmed, unquote_quoted hq, String.ofList_toList]

theorem Verbatim.trimmed_ne : params.trimmed.isEmpty = false := by
  have hwritten := h.written
  rw [← Bool.not_eq_true, String.isEmpty_iff]
  intro hempty
  rw [hempty] at hwritten
  rcases h.fits with ⟨rfl, hfits⟩ | ⟨q, hq, rfl, -⟩
  · have hstarts := hfits.starts
    rw [List.nil_append, List.append_nil] at hwritten
    rw [← hwritten] at hstarts
    cases hstarts
  · cases hwritten

/-- The name that they are taken to declare is the one that they declare. -/
theorem Verbatim.rawName?_eq : rawName? params = .some name := by
  rw [rawName?, h.trimmed_ne, h.unquote_eq]
  rfl

/-- They get the theme's name, between the same quotes, and are read so. -/
theorem Verbatim.newParams_eq (htheme : IsSuffix theme.toList) :
    keyframesName? (newParams theme params) = .some (themed theme name) ∧
      newParams theme params =
        if isReserved name then params else String.ofList (quotes ++ (themed theme name).toList ++ quotes) := by
  cases hname : isReserved name with
  | true =>
    have hreserved : (reservedNames.any fun r => r.equalsIgnoringCase name) = true := hname
    have hnew : newParams theme params = params := by
      simp [newParams, newKeyframes?, h.trimmed_ne, h.unquote_eq, hreserved]
    simp [hnew, h.read, themed, hname]
  | false =>
    have hthemed : (themed theme name).toList = name.toList ++ '-' :: theme.toList := by simp [themed, hname]
    have hquotes : quotes = [] ∨ ∃ q, isQuote q = true ∧ quotes = [q] :=
      h.fits.imp And.left fun ⟨q, hq, hquotes, _⟩ => ⟨q, hq, hquotes⟩
    have hnew : newParams theme params = String.ofList (quotes ++ (themed theme name).toList ++ quotes) := by
      rw [newParams, newKeyframes?_of_quotes h.written hquotes h.unquote_eq h.trimmed_ne hname, hthemed]
      rfl
    refine ⟨?_, hnew⟩
    rw [hnew, hthemed]
    rcases h.fits with ⟨rfl, hfits⟩ | ⟨q, hq, rfl, hfits⟩
    · have hread := reads_ident (hfits.suffix htheme) RunEnds.nil (fun h => nomatch h)
      rw [List.nil_append, List.append_nil, keyframesName?_reads hread rfl, ← hthemed, String.ofList_toList]
      rfl
    · have hread := reads_string hq (hfits.suffix htheme hq) []
      rw [List.append_assoc, List.singleton_append, keyframesName?_reads hread rfl, ← hthemed, String.ofList_toList]
      rfl

end Verbatim

/-- Where all keyframes are written as they are read, they are taken to declare
what they declare. -/
theorem taken_eq {nodes : List Node} (h : ∀ params ∈ Node.keyframesAll nodes, ∃ quotes name, Verbatim params quotes name) :
    taken nodes = declared nodes := by
  refine List.filterMap_congr fun params hparams => ?_
  obtain ⟨quotes, name, hverbatim⟩ := h params hparams
  rw [hverbatim.rawName?_eq, hverbatim.read]

/-! ## Sheets -/

/-- In a sheet for a theme, keyframes that are written as they are read have the
theme's name between the quotes that they had, unless it is reserved, and
different names stay different. The animations of its rules name the theme's
keyframes where they named keyframes of the sheet, and all else as they did: each
value does that can be written with the new names, if what the keyframes are
taken to declare of its names is what they declare. It is, where all keyframes
are written as they are read. -/
theorem annotate_keyframes (attr theme : String) (sheet : Sheet) (htheme : IsSuffix theme.toList) :
    List.Forall₂ (fun old new => ∀ quotes name, Verbatim old quotes name →
        keyframesName? new = .some (themed theme name) ∧
          new = if isReserved name then old else String.ofList (quotes ++ (themed theme name).toList ++ quotes))
      (Node.keyframesAll sheet.nodes) (Node.keyframesAll (annotate attr theme sheet).nodes) ∧
    Function.Injective (themed theme) ∧
    List.Forall₂ (fun old new => Renamable (renames theme sheet.nodes) old →
        (∀ k ∈ names old, isReserved k = false → (k ∈ taken sheet.nodes ↔ k ∈ declared sheet.nodes)) →
        names new = (names old).map fun k => if k ∈ declared sheet.nodes then themed theme k else k)
      (Node.animationsAll sheet.nodes) (Node.animationsAll (annotate attr theme sheet).nodes) ∧
    ((∀ params ∈ Node.keyframesAll sheet.nodes, ∃ quotes name, Verbatim params quotes name) →
      taken sheet.nodes = declared sheet.nodes) := by
  obtain ⟨hkeyframes, hanimations, hrenames⟩ := renameNodes_spec htheme [] sheet.nodes
  rw [List.append_nil, ← renames] at hrenames
  obtain ⟨hkeyframes', hanimations'⟩ :=
    scopeNodes_spec (marker attr theme) (renames theme sheet.nodes) (renameNodes theme [] sheet.nodes).1
  rw [← hrenames] at hkeyframes' hanimations'
  refine ⟨?_, themed_injective theme, ?_, taken_eq⟩
  · rw [show Node.keyframesAll (annotate attr theme sheet).nodes = _ from hkeyframes'.trans hkeyframes,
      List.forall₂_map_right_iff, List.forall₂_same]
    exact fun params _ quotes name h => h.newParams_eq htheme
  · rw [show Node.animationsAll (annotate attr theme sheet).nodes = _ from hanimations', hanimations, hrenames,
      List.forall₂_map_right_iff, List.forall₂_same]
    intro value _ hvalue hagree
    have hnames : names (renamedValue (renames theme sheet.nodes) value) =
        (names value).map fun k => (find? (renames theme sheet.nodes) k).getD k := by
      cases hR : (renames theme sheet.nodes).isEmpty with
      | true =>
        rw [renamedValue, if_pos hR, List.isEmpty_iff.1 hR]
        exact (List.map_id' _).symm
      | false => rw [renamedValue, hR, if_neg Bool.false_ne_true, names_rename hvalue]
    rw [hnames]
    refine List.map_congr_left fun k hk => ?_
    rw [find?_renames]
    cases hname : isReserved k with
    | true => simp [themed, hname]
    | false => simp only [hagree k hk hname]

/-- Keyframes in quotes and under a condition, and an animation that names them
with an escape, before a comment. -/
def spinningSheet : String := "@media print \x7b @-webkit-keyframes 'spin' \x7b\x7d \x7d .x \x7b animation-name: \\73pin/**/ \x7d"

theorem annotate_keyframes_spin :
    IsSuffix "dark".toList ∧ ∃ sheet, Sheet.parse .css .none spinningSheet = .ok sheet ∧
      Node.keyframesAll sheet.nodes = ["'spin'"] ∧ Verbatim "'spin'" ['\''] "spin" ∧
      Node.keyframesAll (annotate "data-theme" "dark" sheet).nodes = ["'spin-dark'"] ∧
      Node.animationsAll sheet.nodes = ["\\73pin/**/"] ∧ Renamable (renames "dark" sheet.nodes) "\\73pin/**/" ∧
      ∃ value, Node.animationsAll (annotate "data-theme" "dark" sheet).nodes = [value] ∧ names value = ["spin-dark"] := by
  have htheme : IsSuffix "dark".toList := by decide
  obtain ⟨sheet, h, hparts⟩ : ∃ sheet, Sheet.parse .css .none spinningSheet = .ok sheet ∧
      (Node.keyframesAll sheet.nodes, Node.animationsAll sheet.nodes) = (["'spin'"], ["\\73pin/**/"]) :=
    ok_of_toOption (by decide +kernel)
  obtain ⟨hkeyframes, hanimations⟩ := Prod.mk.inj hparts
  have hverbatim : Verbatim "'spin'" ['\''] "spin" :=
    ⟨by decide +kernel, by decide +kernel, .inr ⟨'\'', rfl, rfl, by decide +kernel⟩⟩
  have hrenames : renames "dark" sheet.nodes = [("spin", "spin-dark")] := by
    rw [renames, hkeyframes]
    decide +kernel
  have hvalue : Renamable (renames "dark" sheet.nodes) "\\73pin/**/" := by
    rw [hrenames]
    refine ⟨by decide +kernel, fun l new hl hnew => ?_⟩
    have hlexemes : (Pieces.ofText "\\73pin/**/".toList).lexemes =
        [⟨.ident "spin", "\\73pin".toList, 0⟩, ⟨.comment, "/**/".toList, 6⟩] := by
      decide +kernel
    have hmem := hlexemes ▸ mem_lexemes_of_mem_parts hl
    simp only [List.mem_cons, List.not_mem_nil, or_false] at hmem
    rcases hmem with rfl | rfl
    · obtain rfl : "spin-dark" = new := Option.some.inj hnew
      exact ⟨by decide +kernel, by decide +kernel⟩
    · cases hnew
  obtain ⟨hnew, -, hvalues, hsame⟩ := annotate_keyframes "data-theme" "dark" sheet htheme
  rw [hkeyframes, List.forall₂_cons_left_iff] at hnew
  obtain ⟨new, news, hnew, hnil, hkeyframes'⟩ := hnew
  rw [List.forall₂_nil_left_iff] at hnil
  rw [hanimations, List.forall₂_cons_left_iff] at hvalues
  obtain ⟨value, values, hvalues, hnil', hanimations'⟩ := hvalues
  rw [List.forall₂_nil_left_iff] at hnil'
  subst hnil hnil'
  have hdeclared : declared sheet.nodes = ["spin"] := by
    rw [declared, hkeyframes]
    decide +kernel
  have hnames := hvalues hvalue fun k _ _ => by
    rw [hsame]
    rintro params hparams
    rw [hkeyframes, List.mem_singleton] at hparams
    exact ⟨_, _, hparams ▸ hverbatim⟩
  rw [hdeclared] at hnames
  refine ⟨htheme, sheet, h, hkeyframes, hverbatim, ?_, hanimations, hvalue, value, hanimations', ?_⟩
  · rw [hkeyframes', (hnew _ _ hverbatim).2]
    decide +kernel
  · rw [hnames]
    decide +kernel

/-- The escape in the name of the keyframes is not read where they are renamed, so
the animation that names them keeps its name. -/
theorem annotate_escaped :
    ∃ sheet, Sheet.parse .css .none "@keyframes a\\.b \x7b\x7d .x \x7b animation: a\\.b 1s \x7d" = .ok sheet ∧
      declared sheet.nodes = ["a.b"] ∧ isReserved "a.b" = false ∧ (Node.animationsAll sheet.nodes).map names = [["a.b"]] ∧
      declared (annotate "data-theme" "dark" sheet).nodes = ["a.b-dark"] ∧
      (Node.animationsAll (annotate "data-theme" "dark" sheet).nodes).map names = [["a.b"]] := by
  obtain ⟨sheet, h, hparts⟩ : ∃ sheet, Sheet.parse .css .none "@keyframes a\\.b \x7b\x7d .x \x7b animation: a\\.b 1s \x7d" = .ok sheet ∧
      ((declared sheet.nodes, (Node.animationsAll sheet.nodes).map names),
        (declared (annotate "data-theme" "dark" sheet).nodes,
          (Node.animationsAll (annotate "data-theme" "dark" sheet).nodes).map names)) =
      ((["a.b"], [["a.b"]]), (["a.b-dark"], [["a.b"]])) :=
    ok_of_toOption (by decide +kernel)
  obtain ⟨hbefore, hafter⟩ := Prod.mk.inj hparts
  obtain ⟨hdeclared, hnames⟩ := Prod.mk.inj hbefore
  obtain ⟨hdeclared', hnames'⟩ := Prod.mk.inj hafter
  exact ⟨sheet, h, hdeclared, by decide +kernel, hnames, hdeclared', hnames'⟩

end Scope

end ThemeVars
