/-
Custom properties of root rules in Scss. `Interpolable.interpolates`: in a value
that can be written so, each reference by a sigil stands in an interpolation
afterwards, and a second time changes nothing. `emit_interpolates` says so of
what a pass writes, and that nothing else is changed at the end.
`emit_interpolates_cut`: where a blank is part of a name that a fallback ends
with, a reference may be left outside.
-/
import ThemeVars.Proofs.Emission.Spacing
import ThemeVars.Proofs.Value.Recasting

namespace ThemeVars

open Value (SigilLexemes Fits Answers Neat AllComments)
open Pieces (leaves)

/-! ## Names before a brace -/

/-- A brace can stand after a name: no backslash at its end takes it along. -/
def Lexeme.isUnhooked (l : Lexeme) : Bool :=
  match l.token, l.text with
  | .ident name, c :: cs => tokenAt c (cs ++ ['\x7d']) == (.ident name, cs.length + 1)
  | _, _ => true

def Unhooked (ls : List Lexeme) : Prop := ∀ l ∈ ls, l.isUnhooked = true

instance : DecidablePred Unhooked := fun ls => inferInstanceAs (Decidable (∀ l ∈ ls, l.isUnhooked = true))

theorem Unhooked.tail {l : Lexeme} {ls : List Lexeme} (h : Unhooked (l :: ls)) : Unhooked ls :=
  fun m hm => h m (List.mem_cons_of_mem l hm)

theorem Lexeme.reads_brace {l : Lexeme} {name : String} (h : l.isUnhooked = true) (hl : l.token = .ident name)
    (hne : l.text ≠ []) (u : List Char) : Reads l.text ('\x7d' :: u) (.ident name) := by
  obtain ⟨c, cs, htext⟩ := List.exists_cons_of_ne_nil hne
  have hread : Reads l.text ['\x7d'] (.ident name) := by
    simp only [isUnhooked, hl, htext, beq_iff_eq] at h
    exact ⟨c, cs, htext, by rw [h, htext]; rfl⟩
  obtain ⟨hkeeps, -, -⟩ := hread.settled (List.cons_ne_nil _ _)
  exact hread.change (List.cons_ne_nil _ _) ⟨hkeeps.cons (by decide) u, by simp, by simp⟩

theorem reads_dollar {u : List Char} (hu : u.head? ≠ .some '=') : Reads ['$'] u (.delim '$') := by
  refine ⟨'$', [], rfl, ?_⟩
  have hnone : (u.head? == .some '=') = false := by simpa using hu
  simp [tokenAt, hnone, Text.isSpace, Text.isNewline, Numeral.startsAt, Numeral.signOf, startsName, isNameStart]

theorem head?_text_append {ls : List Lexeme} (h : ls.flatMap (·.text) ≠ []) (ms : List Lexeme) :
    ((ls ++ ms).flatMap (·.text)).head? = (ls.flatMap (·.text)).head? := by
  rw [List.flatMap_append, List.head?_append_of_ne_nil _ h]

/-- Behind a dollar sign and comments, a name is read before a brace as it was. -/
theorem tiled_before_brace {l m : Lexeme} {cs ms ms' : List Lexeme} {name : String} (hl : l.token = .delim '$')
    (hcs : AllComments cs) (hm : m.token = .ident name) (hwhole : m.isUnhooked = true) (ht : Tiled (l :: (cs ++ [m]) ++ ms))
    (hms : Tiled ms') : Tiled (l :: (cs ++ [m]) ++ ⟨.closing .curly, ['\x7d'], 0⟩ :: ms') := by
  rw [List.cons_append] at ht
  have hdollar : l.text = ['$'] := ht.1.sign (by rw [hl]; rfl)
  have hname : Tiled (cs ++ [m] ++ ⟨.closing .curly, ['\x7d'], 0⟩ :: ms') := by
    have hrest := ht.2
    rw [List.append_assoc] at hrest ⊢
    clear ht
    induction cs with
    | nil =>
      refine ⟨?_, reads_closing .curly _, hms⟩
      rw [hm]
      exact Lexeme.reads_brace hwhole hm hrest.1.ne_nil _
    | cons c cs ih =>
      have hc : c.token = .comment := by simpa using hcs c List.mem_cons_self
      have hne : (cs ++ ([m] ++ ms)).flatMap (·.text) ≠ [] := by
        obtain ⟨u, hread⟩ := hrest.2.reads (l := m) (by simp)
        simp [hread.ne_nil]
      refine ⟨hrest.1.change hne ?_, ih (fun k hk => hcs k (List.mem_cons_of_mem c hk)) hrest.2⟩
      rw [hc]
      trivial
  refine ⟨?_, hname⟩
  have hread := ht.1
  have hne : (cs ++ [m]).flatMap (·.text) ≠ [] := Tiled.text_ne_nil ht.2 (by simp)
  rw [hl, hdollar] at hread ⊢
  refine reads_dollar ?_
  have hrest : (cs ++ [m] ++ ms).flatMap (·.text) ≠ [] := by
    rw [List.flatMap_append]
    exact List.append_ne_nil_of_left_ne_nil hne _
  have hkept : (outlook ((cs ++ [m] ++ ms).flatMap (·.text))).KeepsDelim '$' := hread.settled hrest
  change ((cs ++ [m] ++ _).flatMap (·.text)).head? ≠ _
  rw [head?_text_append hne, ← head?_text_append hne ms, ← outlook_head]
  exact hkept.equals rfl

/-! ## References in interpolations -/

/-- The pieces of a reference in an interpolation. -/
def wrappedPieces (ls : List Lexeme) : Pieces :=
  .leaf ⟨.delim '#', ['#'], 0⟩
    (.block ⟨.opening .curly, ['\x7b'], 0⟩ .curly (leaves ls .done) (.some ⟨.closing .curly, ['\x7d'], 0⟩) .done)

theorem lexemes_wrappedPieces (ls : List Lexeme) :
    (wrappedPieces ls).lexemes =
      ⟨.delim '#', ['#'], 0⟩ :: ⟨.opening .curly, ['\x7b'], 0⟩ :: ls ++ [⟨.closing .curly, ['\x7d'], 0⟩] := by
  simp [wrappedPieces, Pieces.lexemes, Pieces.lexemes_leaves]

/-- A reference by a dollar sign gives way to the same in an interpolation. -/
theorem yieldsTo_wrapped {l m : Lexeme} {cs : List Lexeme} {name : String} (hl : l.token = .delim '$')
    (hcs : AllComments cs) (hm : m.token = .ident name) :
    YieldsTo Unhooked (l :: (cs ++ [m])) (wrappedPieces (l :: (cs ++ [m]))).lexemes := by
  intro ms ms' hh hms _
  have hwhole : m.isUnhooked = true := hh.known m (by simp)
  have htiled := tiled_before_brace hl hcs hm hwhole hh.tiled hms
  have hdollar : l.text = ['$'] := hh.tiled.1.sign (by rw [hl]; rfl)
  rw [lexemes_wrappedPieces, List.append_assoc, List.cons_append, List.cons_append]
  refine ⟨⟨reads_hash _, reads_curly _, htiled⟩, ?_⟩
  intro k _ hread
  simp only [List.cons_append, List.flatMap_cons, hdollar, List.nil_append] at hread ⊢
  exact hread.before_hash _

/-- So it fits in the place of that reference. -/
theorem fits_wrapped {r : Reference} {ls : List Lexeme} (h : SigilLexemes (.some '$') r ls) :
    Fits Unhooked (.some '$') ls (Value.interpolated r.raw) (wrappedPieces ls) (.interpolation (.reference r .done) .done) := by
  cases h with
  | atKeyword _ hs => cases hs
  | @sigil l c cs m name hl hc hs hcs hm =>
    cases hs
    have hls := Value.SigilLexemes.sigil hl hc rfl hcs hm
    have htokens (k : Lexeme) (hk : k ∈ l :: (cs ++ [m])) : k.token.opens? = .none ∧ ∀ b, k.token.isClosing b = false := by
      rcases List.mem_cons.1 hk with rfl | hk
      · simp [hl, Token.opens?, Token.isClosing]
      · rcases List.mem_append.1 hk with hk | hk
        · have hcomment : k.token = .comment := by simpa using hcs k hk
          simp [hcomment, Token.opens?, Token.isClosing]
        · rw [List.mem_singleton] at hk
          simp [hk, hm, Token.opens?, Token.isClosing]
    have hmatched : (leaves (l :: (cs ++ [m])) .done).Matched := .leaves (fun k hk => (htokens k hk).1) trivial
    have hclosed : (leaves (l :: (cs ++ [m])) .done).Closed := .leaves _ trivial
    have hlacks (b : Bracket) : (leaves (l :: (cs ++ [m])) .done).Lacks b := .leaves (fun k hk => (htokens k hk).2 b) trivial
    have hfresh : ∀ name, (Token.delim '#') ≠ .ident name := by
      intro name h
      cases h
    refine ⟨fun hv => .interpolated rfl (hls.reads .done) hv, ?_, ?_, ?_, ?_, ?_,
      fun _ _ => .freshLeaf ⟨rfl, hfresh⟩, ⟨_, _, .curly, lexemes_wrappedPieces _, rfl⟩, yieldsTo_wrapped hl hcs hm⟩
    · rw [Pieces.text, lexemes_wrappedPieces, Value.interpolated, String.toList_append, String.toList_append, hls.raw]
      simp
    · simp [Value.verbatim]
    · refine ⟨rfl, rfl, hlacks .curly, hmatched, fun k hk => ?_, fun h => absurd h (Option.some_ne_none _), trivial⟩
      cases hk
      exact ⟨rfl, hclosed⟩
    · exact ⟨hclosed, Option.some_ne_none _, trivial⟩
    · exact fun b => ⟨rfl, trivial⟩

/-! ## Values -/

/-- A reference by a sigil that stands in no interpolation. -/
def Occurrence.isBare (e : Occurrence) : Bool := e.kind == .sigil && !e.inside

/-- A reference by a sigil is put into an interpolation. -/
def Occurrence.wrapped (e : Occurrence) : Occurrence := { e with inside := e.inside || e.kind == .sigil }

theorem Occurrence.isBare_wrapped (e : Occurrence) : e.wrapped.isBare = false := by
  simp only [isBare, wrapped, Bool.not_or, Bool.and_eq_false_iff]
  cases e.kind == .sigil with
  | true => simp
  | false => simp

/-- What is asked about each reference. -/
def wrap (r : Reference) (inside : Bool) : Option String :=
  if r.kind == .sigil && !inside then .some (Value.interpolated r.raw) else .none

theorem interpolateReferences_ok {value : String} {v : Value} (h : Value.read (.some '$') value = .ok v) :
    interpolateReferences value = Id.run (v.rewrite (fun r inside => pure (wrap r inside)) false) := by
  rw [interpolateReferences, h]
  rfl

theorem interpolateReferences_error {value : String} {e : ValueError} (h : Value.read (.some '$') value = .error e) :
    interpolateReferences value = value := by
  rw [interpolateReferences, h]

/-- The references that are asked for are put into interpolations. -/
theorem answers_wrap : Answers Unhooked (.some '$') Occurrence.isBare (fun r inside new => new = wrap r inside)
    fun e es => es = [e.wrapped] := by
  have hwrap {r : Reference} {b : Bool} {new : String} (h : .some new = wrap r b) :
      r.kind = .sigil ∧ b = false ∧ new = Value.interpolated r.raw := by
    unfold wrap at h
    split at h
    · rename_i hbare
      simp only [Bool.and_eq_true, beq_iff_eq, Bool.not_eq_true'] at hbare
      exact ⟨hbare.1, hbare.2, Option.some.inj h⟩
    · cases h
  refine ⟨fun r b h => ?_, fun r b new h => ?_, fun r b new ls h hls => ?_⟩
  · have hkept : (r.kind == .sigil && !b) = false := by
      by_contra hbare
      rw [wrap, if_pos (by simpa using hbare)] at h
      cases h
    cases b with
    | true => rfl
    | false =>
      rw [Bool.not_false, Bool.and_true] at hkept
      simp [Reference.occurrence, Occurrence.wrapped, hkept]
  · obtain ⟨hkind, rfl, -⟩ := hwrap h
    exact ⟨by simp [Occurrence.isBare, Reference.occurrence, hkind], hkind⟩
  · obtain ⟨hkind, rfl, rfl⟩ := hwrap h
    refine ⟨_, _, fits_wrapped hls, ?_⟩
    simp [Value.occurrences, Reference.occurrence, Occurrence.wrapped, hkind]

/-- The value can be written with its references in interpolations: its blocks
are closed, a brace can stand after each name, and each `var()` around a
reference can be written anew. -/
structure Interpolable (value : String) : Prop where
  closed : (Pieces.ofText value.toList).Closed
  unhooked : Unhooked (lexemes value.toList)
  neat : ∀ v, Value.read (.some '$') value = .ok v → Neat Occurrence.isBare false v

theorem Interpolable.read {value : String} (h : Interpolable value) {v : Value}
    (hv : Value.read (.some '$') value = .ok v) :
    ∃ w, Value.read (.some '$') (interpolateReferences value) = .ok w ∧ w.verbatim = interpolateReferences value ∧
      w.occurrences false = (v.occurrences false).map Occurrence.wrapped := by
  have hwrites := Value.writes_pure wrap v false
  rw [← interpolateReferences_ok hv] at hwrites
  obtain ⟨w, hw, hverbatim, hspliced⟩ :=
    Value.read_of_writes Unhooked.tail hv h.closed h.unhooked answers_wrap (h.neat v hv) hwrites
  exact ⟨w, hw, hverbatim, hspliced.eq_map⟩

/-- Afterwards every reference by a sigil stands in an interpolation. -/
theorem Interpolable.inside {value : String} (h : Interpolable value) {w : Value}
    (hw : Value.read (.some '$') (interpolateReferences value) = .ok w) : (w.occurrences false).any Occurrence.isBare = false := by
  cases hv : Value.read (.some '$') value with
  | error e =>
    rw [interpolateReferences_error hv, hv] at hw
    cases hw
  | ok v =>
    obtain ⟨w', hw', -, hmap⟩ := h.read hv
    cases hw.symm.trans hw'
    simp [hmap, Occurrence.isBare_wrapped]

/-- A second time changes nothing. -/
theorem Interpolable.idempotent {value : String} (h : Interpolable value) :
    interpolateReferences (interpolateReferences value) = interpolateReferences value := by
  cases hv : Value.read (.some '$') value with
  | error e => rw [interpolateReferences_error hv, interpolateReferences_error hv]
  | ok v =>
    obtain ⟨w, hw, hverbatim, -⟩ := h.read hv
    have hsame := (Value.writes_pure wrap w false).eq_verbatim (fun r b new hr => (answers_wrap.asked r b new hr).1) (h.inside hw)
    rw [interpolateReferences_ok hw, hsame, hverbatim]

instance (value : String) : Decidable (Interpolable value) :=
  decidable_of_iff
    ((Pieces.ofText value.toList).Closed ∧ Unhooked (lexemes value.toList) ∧
      (Value.read (.some '$') value).toOption.all fun v => Neat Occurrence.isBare false v) <| by
    constructor
    · rintro ⟨hclosed, hunhooked, hneat⟩
      refine ⟨hclosed, hunhooked, fun v hv => ?_⟩
      simpa [hv, Except.toOption] using hneat
    · intro h
      refine ⟨h.closed, h.unhooked, ?_⟩
      cases hv : Value.read (.some '$') value with
      | error e => rfl
      | ok v => simpa [Except.toOption] using h.neat v hv

/-! ## Root rules -/

namespace Node

/-- The rule is one of the root element, or has the selector that stands for it. -/
def isRootRule (rootSelector selector : String) : Bool := isRootSelector selector || selector.trimmed == rootSelector

/-- The node with its value changed, if it is a custom property. -/
def mapCustom (f : String → String) : Node → Node
  | .declaration property value spacing semicolon =>
    .declaration property (if isCustomProperty property then f value else value) spacing semicolon
  | node => node

/-- The node with the custom properties changed that a root rule has. -/
def mapRootValues (f : String → String) (rootSelector : String) : Node → Node
  | .rule selector children spacing =>
    .rule selector (if isRootRule rootSelector selector then children.map (mapCustom f) else children) spacing
  | node => node

/-- The values of the custom properties that root rules have. -/
def rootValues (rootSelector : String) (nodes : List Node) : List String :=
  nodes.flatMap fun
    | .rule selector children _ =>
      if isRootRule rootSelector selector then (customProperties children).map (·.2) else []
    | _ => []

variable {f g : String → String} {rootSelector : String}

theorem interpolateRootValues_eq (rootSelector : String) :
    interpolateRootValues rootSelector = mapRootValues interpolateReferences rootSelector := by
  funext node
  cases node with
  | rule selector children spacing =>
    rw [interpolateRootValues, mapRootValues, isRootRule]
    cases Node.isRootSelector selector || selector.trimmed == rootSelector with
    | true =>
      refine congrArg (Node.rule selector · spacing) (List.map_congr_left fun child _ => ?_)
      cases child <;> rfl
    | false => rfl
  | declaration | statement | group | comment => rfl

theorem mapCustom_mapCustom (node : Node) : mapCustom f (mapCustom g node) = mapCustom (f ∘ g) node := by
  cases node with
  | declaration property value spacing semicolon =>
    simp only [mapCustom]
    cases isCustomProperty property with
    | true => rfl
    | false => rfl
  | rule | statement | group | comment => rfl

theorem mapRootValues_mapRootValues (node : Node) :
    mapRootValues f rootSelector (mapRootValues g rootSelector node) = mapRootValues (f ∘ g) rootSelector node := by
  cases node with
  | rule selector children spacing =>
    simp only [mapRootValues]
    cases isRootRule rootSelector selector with
    | true => simp [mapCustom_mapCustom, Function.comp_def]
    | false => rfl
  | declaration | statement | group | comment => rfl

theorem customProperties_mapCustom (children : List Node) :
    customProperties (children.map (mapCustom f)) = (customProperties children).map fun d => (d.1, f d.2) := by
  rw [customProperties, customProperties, List.filterMap_map, List.map_filterMap]
  refine List.filterMap_congr fun child _ => ?_
  cases child with
  | declaration property value spacing semicolon =>
    simp only [Function.comp_apply, mapCustom]
    cases isCustomProperty property with
    | true => rfl
    | false => rfl
  | rule | statement | group | comment => rfl

theorem rootValues_mapRootValues (nodes : List Node) :
    rootValues rootSelector (nodes.map (mapRootValues f rootSelector)) = (rootValues rootSelector nodes).map f := by
  rw [rootValues, rootValues, List.flatMap_map, List.map_flatMap]
  congr 1
  funext node
  cases node with
  | rule selector children spacing =>
    simp only [mapRootValues]
    cases isRootRule rootSelector selector with
    | true => simp [customProperties_mapCustom]
    | false => rfl
  | declaration | statement | group | comment => rfl

theorem mapCustom_congr {children : List Node} (h : ∀ d ∈ customProperties children, f d.2 = g d.2) :
    children.map (mapCustom f) = children.map (mapCustom g) := by
  refine List.map_congr_left fun child hc => ?_
  cases child with
  | declaration property value spacing semicolon =>
    simp only [mapCustom]
    cases hp : isCustomProperty property with
    | true =>
      have hmem : (property, value) ∈ customProperties children :=
        List.mem_filterMap.2 ⟨_, hc, by simp [hp]⟩
      simpa using h _ hmem
    | false => rfl
  | rule | statement | group | comment => rfl

theorem mapRootValues_congr {nodes : List Node} (h : ∀ value ∈ rootValues rootSelector nodes, f value = g value) :
    nodes.map (mapRootValues f rootSelector) = nodes.map (mapRootValues g rootSelector) := by
  refine List.map_congr_left fun node hn => ?_
  cases node with
  | rule selector children spacing =>
    simp only [mapRootValues]
    cases hroot : isRootRule rootSelector selector with
    | true =>
      refine congrArg (Node.rule selector · spacing) (mapCustom_congr fun d hd => h _ ?_)
      refine List.mem_flatMap.2 ⟨_, hn, ?_⟩
      simp only [hroot, if_true]
      exact List.mem_map_of_mem hd
    | false => rfl
  | declaration | statement | group | comment => rfl

end Node

/-! ## A pass -/

/-- The value after its references have been put into interpolations. -/
structure Interpolates (before after : String) : Prop where
  /-- No reference by a sigil stands outside. -/
  inside : ∀ w, Value.read (.some '$') after = .ok w → ∀ e ∈ w.occurrences false, e.kind = .sigil → e.inside = true
  /-- No reference is lost or added. -/
  kept : ∀ v, Value.read (.some '$') before = .ok v → ∃ w, Value.read (.some '$') after = .ok w ∧ w.verbatim = after ∧
    w.occurrences false = (v.occurrences false).map Occurrence.wrapped
  idempotent : interpolateReferences after = after

theorem Interpolable.interpolates {value : String} (h : Interpolable value) :
    Interpolates value (interpolateReferences value) := by
  refine ⟨fun w hw e he hkind => ?_, fun v hv => h.read hv, h.idempotent⟩
  by_contra hinside
  have hnone := List.any_eq_false.1 (h.inside hw) e he
  rw [Bool.not_eq_true] at hinside
  exact hnone (by simp [Occurrence.isBare, hkind, hinside])

namespace Pass

variable {context : PassContext} {mode : EmitMode} {p : Pass} {out : Output}

theorem interpolated_scss (hd : context.dialect = .scss) (sheet : Sheet) :
    interpolated context sheet = { sheet with
      nodes := sheet.nodes.map (Node.mapRootValues interpolateReferences context.settings.rootSelector) } := by
  unfold interpolated
  rw [if_pos (by rw [hd]; rfl), Node.interpolateRootValues_eq]

/-- In a Scss file, each custom property of a root rule is written with its
references in interpolations, if it can be; nothing else is changed at the end.
If all can be, a second time changes nothing. -/
theorem emit_interpolates (hd : context.dialect = .scss) (h : p.emit context mode = .ok out) :
    ∃ written s, (p.emission context mode).run { memo := p.memo } = .ok (written, s) ∧
      out.sheet = { written with nodes := out.sheet.nodes } ∧
      out.sheet.nodes.map (Node.mapRootValues (fun _ => "") context.settings.rootSelector) =
        written.nodes.map (Node.mapRootValues (fun _ => "") context.settings.rootSelector) ∧
      List.Forall₂ (fun before after => Interpolable before → Interpolates before after)
        (Node.rootValues context.settings.rootSelector written.nodes)
        (Node.rootValues context.settings.rootSelector out.sheet.nodes) ∧
      ((∀ value ∈ Node.rootValues context.settings.rootSelector written.nodes, Interpolable value) →
        interpolated context out.sheet = out.sheet) := by
  rw [emit_eq] at h
  obtain ⟨⟨written, s⟩, hrun, hret⟩ := bind_ok.1 h
  have hsheet : out.sheet = interpolated context written := by
    cases hret
    rfl
  rw [interpolated_scss hd] at hsheet
  rw [hsheet]
  refine ⟨written, s, hrun, rfl, ?_, ?_, fun hall => ?_⟩
  · rw [List.map_map]
    exact List.map_congr_left fun node _ => Node.mapRootValues_mapRootValues node
  · rw [Node.rootValues_mapRootValues, List.forall₂_map_right_iff]
    exact List.forall₂_same.2 fun value _ => Interpolable.interpolates
  · rw [interpolated_scss hd]
    refine congrArg (fun nodes => ({ written with nodes } : Sheet)) ?_
    rw [List.map_map]
    refine (List.map_congr_left fun node _ => Node.mapRootValues_mapRootValues node).trans ?_
    exact Node.mapRootValues_congr fun value hv => (hall value hv).idempotent

end Pass

/-- A configuration for Scss, with no theme. -/
def shades : PassContext := ⟨{}, .scss, [], .merged []⟩

/-- A custom property of the root element, and declarations beside it. -/
def shaded (value : String) : Pass :=
  let sheet : Sheet := {
    nodes := [.rule ":root" [.declaration "--p" value { before := " ", between := ": " } true,
        .declaration "color" "$x" { before := " ", between := ": ", after := " " } false] { between := " " },
      .rule "a" [.declaration "--q" "$x" { before := " ", between := ": ", after := " " } false] { before := "\n", between := " " }] }
  { sheet, file := .none, table := {} }

theorem emit_interpolates_shaded :
    ∃ out, (shaded "var(--a, -$x) #\x7b$y\x7d $z").emit shades .inPlace = .ok out ∧
      out.sheet.print = ":root \x7b --p: var(--a, -#\x7b$x\x7d) #\x7b$y\x7d #\x7b$z\x7d; color: $x \x7d\na \x7b --q: $x \x7d" ∧
      List.Forall₂ Interpolates ["var(--a, -$x) #\x7b$y\x7d $z"] (Node.rootValues ":root" out.sheet.nodes) ∧
      Pass.interpolated shades out.sheet = out.sheet := by
  obtain ⟨out, hout, hprint⟩ : ∃ out, (shaded "var(--a, -$x) #\x7b$y\x7d $z").emit shades .inPlace = .ok out ∧
      out.sheet.print =
        ":root \x7b --p: var(--a, -#\x7b$x\x7d) #\x7b$y\x7d #\x7b$z\x7d; color: $x \x7d\na \x7b --q: $x \x7d" :=
    ok_of_toOption (by decide +kernel)
  obtain ⟨written, s, hrun, -, -, hvalues, hagain⟩ := Pass.emit_interpolates rfl hout
  obtain ⟨⟨sheet, t⟩, hsheet, hroot⟩ :
      ∃ a, ((shaded "var(--a, -$x) #\x7b$y\x7d $z").emission shades .inPlace).run { memo := {} } = .ok a ∧
        Node.rootValues ":root" a.1.nodes = ["var(--a, -$x) #\x7b$y\x7d $z"] :=
    ok_of_toOption (by decide +kernel)
  cases hrun.symm.trans hsheet
  change Node.rootValues shades.settings.rootSelector written.nodes = _ at hroot
  rw [hroot] at hvalues hagain
  have hall : ∀ value ∈ ["var(--a, -$x) #\x7b$y\x7d $z"], Interpolable value := by decide +kernel
  exact ⟨out, hout, hprint, ((List.forall₂_and_left _ _).2 ⟨hall, hvalues⟩).imp fun _ _ h => h.2 h.1, hagain hall⟩

/-- The blank at the end of a fallback is cut off where it is part of a name; the
parenthesis is then taken for a part of it, and a reference behind it is left
outside. -/
theorem emit_interpolates_cut :
    (Pieces.ofText "var(--a, $x \\ )url(a$b)".toList).Closed ∧
      ((shaded "var(--a, $x \\ )url(a$b)").emit shades .inPlace).toOption.map
          (fun out => Node.rootValues ":root" out.sheet.nodes) = .some ["var(--a, #\x7b$x\x7d \\)url(a$b)"] ∧
      (Value.read (.some '$') "var(--a, #\x7b$x\x7d \\)url(a$b)").toOption.map (fun w => (w.occurrences false).any Occurrence.isBare) =
        .some true ∧
      interpolateReferences "var(--a, #\x7b$x\x7d \\)url(a$b)" ≠ "var(--a, #\x7b$x\x7d \\)url(a$b)" := by
  refine ⟨?_, ?_, ?_, ?_⟩
  · decide +kernel
  · decide +kernel
  · decide +kernel
  · decide +kernel

end ThemeVars
