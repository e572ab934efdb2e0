/-
Texts in the place of a fallback. `IsFallback.fits`: around a text of no
references, a reference to the custom property of a variable can be written
wherever a reference is read, and where the property stands for nothing it means
the text.
-/
import ThemeVars.Emission
import ThemeVars.Proofs.Ident
import ThemeVars.Proofs.Value.Kept
import ThemeVars.Proofs.Value.Meaning

namespace ThemeVars

open Text
open Pieces (leaves)

/-- The name of a custom property that stands for a variable needs no escape. -/
theorem Ident.IsLegal.fitsCustom {i : Ident} (h : i.IsLegal) : FitsCustom i.text.toList := by
  obtain ⟨c, cs, htext, -, hplain⟩ := h
  have hchar {d : Char} (hd : isPlain d = true) : (d ≠ '\\' ∧ d ≠ '\x00') ∧ isNameChar d = true := by
    refine ⟨⟨?_, ?_⟩, ?_⟩
    · rintro rfl
      cases hd
    · rintro rfl
      cases hd
    · simp only [isPlain, Char.isAlphanum, Bool.or_eq_true, beq_iff_eq] at hd
      rcases hd with ((hd | hd) | rfl) | rfl
      · simp [isNameChar, isNameStart, hd]
      · simp [isNameChar, hd]
      · rfl
      · rfl
  have hall : ∀ d ∈ '-' :: '-' :: c :: cs, (d ≠ '\\' ∧ d ≠ '\x00') ∧ isNameChar d = true :=
    List.forall_mem_cons.2 ⟨hchar rfl, List.forall_mem_cons.2 ⟨hchar rfl, fun d hd => hchar (hplain d hd)⟩⟩
  have hspan : spanEscaped false isNameChar .plain (('-' :: '-' :: c :: cs) ++ []) = ('-' :: '-' :: c :: cs, []) :=
    spanEscaped_plain (fun d hd => (hall d hd).1) (fun d hd => (hall d hd).2) .nil
  rw [List.append_nil] at hspan
  rw [htext]
  exact ⟨fun d hd => (hall d hd).1, congrArg Prod.fst hspan, ⟨c :: cs, rfl⟩⟩

/-- Lexemes are those of a text wherever they stand. -/
theorem Tiled.of_unplaced {ls ms : List Lexeme} (h : Tiled ls) (hs : ls.map Lexeme.unplaced = ms.map Lexeme.unplaced) :
    Tiled ms := by
  induction ls generalizing ms with
  | nil =>
    rw [List.map_nil, eq_comm, List.map_eq_nil_iff] at hs
    rw [hs]
    trivial
  | cons l ls ih =>
    cases ms with
    | nil => cases hs
    | cons m ms =>
      obtain ⟨hl, hrest⟩ := List.cons.inj hs
      obtain ⟨htoken, htext⟩ := Lexeme.of_unplaced hl
      have hread := h.1
      rw [htoken, htext, text_of_unplaced hrest] at hread
      exact ⟨hread, ih h.2 hrest⟩

namespace Value

section

variable {sigil : Option Char} {may : String → Bool} {r : Reference} {ls inner : List Lexeme} {opener closer : Lexeme} {y : String}

/-- A `var()` can take the place of a reference, if that is not one by a sigil
that may not be replaced. -/
theorem ReferenceLexemes.yieldsTo (hls : ReferenceLexemes sigil r ls) (hmay : may r.name = true)
    (hy : opener.token = .function y) (hlowered : y.lowered = "var") (hclosing : closer.token = .closing .round)
    (htiled : Tiled ((opener :: inner) ++ [closer])) : YieldsTo (Loose sigil may) ls ((opener :: inner) ++ [closer]) := by
  cases hls with
  | sigil hls => exact hls.yieldsTo hmay hy hlowered hclosing htiled
  | @var opener' closer' x inner' name hx hlowered' _ =>
    intro ms ms' hh hms _
    rw [List.append_assoc]
    have hput : Tiled ((opener :: inner) ++ closer :: ms') := htiled.change_after hclosing hms
    have hseen {l : Lexeme} {z : String} {ks : List Lexeme} (hz : l.token = .function z) (hvar : z.lowered = "var")
        (ht : Tiled (l :: ks)) :
        startsName ((l :: ks).flatMap (·.text)) = true ∧ (outlook ((l :: ks).flatMap (·.text))).dashes = false := by
      have hread : Reads l.text (ks.flatMap (·.text)) (.function z) := hz ▸ ht.1
      exact hread.dashes_function (by rw [hvar]; decide)
    obtain ⟨hstarts, hdashes⟩ := hseen hx hlowered' hh.tiled
    obtain ⟨hstarts', hdashes'⟩ := hseen hy hlowered hput
    exact ⟨hput, seen_of_seenAlike (.inr ⟨hstarts, hstarts', hdashes.trans hdashes'.symm⟩)⟩

end

/-- What opens a `var()` that is written anew. -/
def varOpener : Lexeme := ⟨.function "var", "var(".toList, 0⟩

def varCloser : Lexeme := ⟨.closing .round, [')'], 0⟩

section

variable {sigil : Option Char} {may : String → Bool} {r : Reference} {ls : List Lexeme} {inner : Pieces} {x : Value}

/-- A `var()` fits in the place of a reference that may be replaced. -/
theorem fits_var {new : String} (hls : ReferenceLexemes sigil r ls) (hmay : may r.name = true) (hm : inner.Matched)
    (hc : inner.Closed) (hl : inner.Lacks .round) (ht : Tiled ((varOpener :: inner.lexemes) ++ [varCloser]))
    (hreads : ∀ {rest v}, ReadsAs sigil rest v →
      ReadsAs sigil (.block varOpener .round inner (.some varCloser) rest) (x.append v))
    (hnew : String.ofList (Pieces.blockText varOpener inner (.some varCloser)) = new) (hx : x.verbatim = new) :
    Fits (Loose sigil may) sigil ls new (.block varOpener .round inner (.some varCloser) .done) x := by
  have hlexemes : (Pieces.block varOpener .round inner (.some varCloser) .done).lexemes =
      (varOpener :: inner.lexemes) ++ [varCloser] := by
    simp [Pieces.lexemes]
  refine ⟨hreads, ?_, hx, ⟨rfl, hl, hm, fun l hl => ?_, fun h => absurd h (Option.some_ne_none _), trivial⟩,
    ⟨hc, Option.some_ne_none _, trivial⟩, fun _ => trivial, fun _ _ => .freshBlock (by decide),
    ⟨_, _, .round, hlexemes, rfl⟩, ?_⟩
  · rw [← hnew, String.toList_ofList, Pieces.text_block]
    exact List.append_nil _
  · cases hl
    exact ⟨rfl, hc⟩
  · rw [hlexemes]
    exact hls.yieldsTo hmay rfl rfl rfl ht

end

/-! ## Texts that can be fallbacks -/

/-- The text is read as text only, and so it is before a parenthesis; no comment
stands at its front, where it would be no part of a fallback. -/
structure IsFallback (sigil : Option Char) (text : String) : Prop where
  read : Value.read sigil text = .ok (consText text .done)
  closed : (Pieces.ofText text.toList).Closed
  lacks : (Pieces.ofText text.toList).Lacks .round
  ends : (lexemes (text.toList ++ [')'])).map Lexeme.unplaced = (lexemes text.toList).map Lexeme.unplaced ++ [varCloser]
  starts : ((lexemes text.toList).find? (·.token != .space)).all (!·.token.isFiller) = true

instance (sigil : Option Char) (text : String) : Decidable (IsFallback sigil text) :=
  decidable_of_iff
    ((Value.read sigil text).toOption = .some (consText text .done) ∧ (Pieces.ofText text.toList).Closed ∧
      (Pieces.ofText text.toList).Lacks .round ∧
      (lexemes (text.toList ++ [')'])).map Lexeme.unplaced = (lexemes text.toList).map Lexeme.unplaced ++ [varCloser] ∧
      ((lexemes text.toList).find? (·.token != .space)).all (!·.token.isFiller) = true) <| by
    constructor
    · rintro ⟨hread, hclosed, hlacks, hends, hstarts⟩
      obtain ⟨v, hv, hsame⟩ := ok_of_toOption (Option.map_id'.trans hread)
      exact ⟨hv.trans (congrArg Except.ok hsame), hclosed, hlacks, hends, hstarts⟩
    · intro h
      exact ⟨congrArg Except.toOption h.read, h.closed, h.lacks, h.ends, h.starts⟩

theorem dropLeaves_leaf {f : Token → Bool} {p rest : Pieces} {l : Lexeme} (h : p.dropLeaves f = .leaf l rest) :
    f l.token = false := by
  induction p with
  | done => cases h
  | block => cases h
  | leaf m p ih =>
    rw [Pieces.dropLeaves] at h
    split at h
    · exact ih h
    · rename_i hm
      cases h
      simpa using hm

theorem ReadsAs.of_spaces {sigil : Option Char} {spaces : List Lexeme} {p : Pieces} {v : Value}
    (hs : ∀ l ∈ spaces, l.token = .space) (h : ReadsAs sigil (leaves spaces p) v) :
    ∃ x, ReadsAs sigil p x ∧ v = consText (String.ofList (spaces.flatMap (·.text))) x := by
  induction spaces generalizing v with
  | nil => exact ⟨v, h, rfl⟩
  | cons l spaces ih =>
    obtain ⟨hl, hspaces⟩ := List.forall_mem_cons.1 hs
    rw [Pieces.leaves_cons] at h
    generalize leaves spaces p = rest at h ih
    cases h with
    | text _ h =>
      obtain ⟨x, hx, rfl⟩ := ih hspaces h
      exact ⟨x, hx, by rw [consText_consText, List.flatMap_cons, String.ofList_append]⟩
    | interpolation hhash => cases hl.symm.trans hhash
    | atKeyword hat => cases hl.symm.trans hat
    | sigil hdelim => cases hl.symm.trans hdelim

section

variable {sigil : Option Char} {text : String}

/-- The pieces of such a text: space, and what a fallback is read from. -/
structure FallbackPieces (sigil : Option Char) (text : String) (spaces : List Lexeme) (core : Pieces) (x : Value) : Prop where
  pieces : Pieces.ofText text.toList = leaves spaces core
  blank : IsSpaces (String.ofList (spaces.flatMap (·.text)))
  fixed : core.afterFiller = core
  head : ((core.lexemes ++ [varCloser]).flatMap (·.text)).head?.any isSpace = false
  tiled : Tiled (core.lexemes ++ [varCloser])
  reads : ReadsAs sigil core x
  value : consText text .done = consText (String.ofList (spaces.flatMap (·.text))) x

theorem IsFallback.pieces (h : IsFallback sigil text) : ∃ spaces core x, FallbackPieces sigil text spaces core x := by
  obtain ⟨spaces, hspaces, hp, -⟩ := Pieces.exists_leaves (· == .space) (Pieces.ofText text.toList)
  have hleaf (l : Lexeme) (rest : Pieces) (hdrop : (Pieces.ofText text.toList).dropLeaves (· == .space) = .leaf l rest) :
      (l.token == .space) = false := dropLeaves_leaf hdrop
  generalize (Pieces.ofText text.toList).dropLeaves (· == .space) = core at hp hleaf
  have hspaces' : ∀ l ∈ spaces, l.token = .space := fun l hl => by simpa using hspaces l hl
  have hlexemes : lexemes text.toList = spaces ++ core.lexemes := by
    rw [← Pieces.lexemes_ofLexemes (lexemes text.toList), ← Pieces.ofText, hp, Pieces.lexemes_leaves]
  have hmatched : core.Matched := by
    have hm : (Pieces.ofText text.toList).Matched := Pieces.matched_ofLexemes _
    rw [hp] at hm
    exact hm.of_leaves
  obtain ⟨x, hx, hvalue⟩ := (hp ▸ readsAs_iff.1 h.read : ReadsAs sigil (leaves spaces core) _).of_spaces hspaces'
  have htiled : Tiled (core.lexemes ++ [varCloser]) := by
    refine Tiled.of_append (a := spaces) ((tiled_lexemes (text.toList ++ [')'])).of_unplaced ?_)
    rw [h.ends, hlexemes]
    simp [Lexeme.unplaced, varCloser]
  -- the first lexeme of the core is no space
  have hfirst : ∀ l ls, core.lexemes = l :: ls → l.token ≠ .space := by
    intro l ls hl
    cases core with
    | done => cases hl
    | leaf m rest =>
      cases hl
      simpa using hleaf l rest rfl
    | block opener bracket inner closer rest =>
      cases hl
      intro hspace
      have hopens := hmatched.1
      rw [hspace] at hopens
      cases hopens
  have hfind : (lexemes text.toList).find? (·.token != .space) = core.lexemes.head? := by
    have hnone : spaces.find? (·.token != .space) = .none := by
      rw [List.find?_eq_none]
      intro l hl
      simp [hspaces' l hl]
    rw [hlexemes, List.find?_append, hnone, Option.none_or]
    cases hc : core.lexemes with
    | nil => rfl
    | cons l ls => rw [List.find?_cons_of_pos (by simpa using hfirst l ls hc), List.head?_cons]
  refine ⟨spaces, core, x, hp, fun c hc => ?_, ?_, ?_, htiled, hx, hvalue⟩
  · rw [String.toList_ofList] at hc
    obtain ⟨l, hl, hc⟩ := List.mem_flatMap.1 hc
    obtain ⟨u, hread⟩ := (tiled_lexemes text.toList).reads (hlexemes ▸ List.mem_append_left _ hl)
    rw [hspaces' l hl] at hread
    exact hread.isSpace_of_mem hc
  · cases core with
    | done => rfl
    | block => rfl
    | leaf l rest =>
      have hstarts := h.starts
      rw [hfind] at hstarts
      exact Pieces.afterFiller_leaf.2 (by simpa [Pieces.lexemes] using hstarts)
  · cases hc : core.lexemes with
    | nil => rfl
    | cons l ls =>
      rw [hc] at htiled
      have hhead := htiled.1.isSpace_head (hfirst l ls hc)
      rw [List.cons_append, List.flatMap_cons, List.head?_append_of_ne_nil _ htiled.1.ne_nil]
      exact hhead

variable {may : String → Bool} {r : Reference} {ls : List Lexeme} {ident : Ident}

/-- The name of the custom property, as a lexeme. -/
def nameLexeme (ident : Ident) : Lexeme := ⟨.ident ident.text, ident.text.toList, 0⟩

theorem reads_nameLexeme (hname : FitsCustom ident.text.toList) {c : Char} (hc : c = ')' ∨ c = ',') (rest : List Char) :
    Reads (nameLexeme ident).text (c :: rest) (nameLexeme ident).token := by
  have hread := hname.reads hc rest
  rwa [String.ofList_toList] at hread

theorem varParts_nameLexeme (hname : FitsCustom ident.text.toList) {rest : Pieces} {fallback : Option Pieces}
    (hrest : fallbackOf rest = .ok fallback) :
    varParts (.leaf (nameLexeme ident) rest) = .ok (ident.text, fallback) :=
  varParts_named.2 (.inr ⟨[], _, _, List.forall_mem_nil _, rfl, List.isPrefixOf_iff_prefix.2 hname.hyphens, rfl, hrest⟩)

/-- A reference to the custom property without a fallback. -/
theorem fits_bare (hname : FitsCustom ident.text.toList) (hls : ReferenceLexemes sigil r ls) (hmay : may r.name = true) :
    ∃ q raw, Fits (Loose sigil may) sigil ls (varWithFallback ident "") q (.reference ⟨ident.text, raw, .var⟩ .done) := by
  let inner : Pieces := .leaf (nameLexeme ident) .done
  have ht : Tiled ((varOpener :: inner.lexemes) ++ [varCloser]) :=
    ⟨reads_var _, reads_nameLexeme hname (.inl rfl) _, reads_closing .round _, trivial⟩
  have hnew : String.ofList (Pieces.blockText varOpener inner (.some varCloser)) = varWithFallback ident "" := by
    apply String.toList_injective
    simp [inner, Pieces.blockText, Pieces.text, Pieces.lexemes, varOpener, varCloser, nameLexeme, varWithFallback]
  exact ⟨_, _, fits_var hls hmay (show inner.Matched from ⟨rfl, trivial⟩) trivial ⟨rfl, trivial⟩ ht
    (fun hv => .var rfl (varParts_nameLexeme hname rfl) hv) hnew (String.append_empty.trans hnew)⟩

/-- A reference to the custom property with such a text as its fallback. -/
theorem FallbackPieces.fits {spaces : List Lexeme} {core : Pieces} {x : Value} (h : IsFallback sigil text)
    (hp : FallbackPieces sigil text spaces core x) (hne : text ≠ "") (hname : FitsCustom ident.text.toList)
    (hls : ReferenceLexemes sigil r ls) (hmay : may r.name = true) :
    ∃ q raw, Fits (Loose sigil may) sigil ls (varWithFallback ident text) q (.guarded ⟨ident.text, raw, .var⟩ x .done) := by
  let blank : Lexeme := ⟨.space, ' ' :: spaces.flatMap (·.text), 0⟩
  let inner : Pieces := leaves [nameLexeme ident, ⟨.comma, [','], 0⟩, blank] core
  have hm : (leaves spaces core).Matched := hp.pieces ▸ Pieces.matched_ofLexemes _
  have hc : (leaves spaces core).Closed := hp.pieces ▸ h.closed
  have hl : (leaves spaces core).Lacks .round := hp.pieces ▸ h.lacks
  have hblank : ∀ c ∈ blank.text, isSpace c = true :=
    List.forall_mem_cons.2 ⟨rfl, fun c hc => hp.blank c (by rwa [String.toList_ofList])⟩
  have ht : Tiled ((varOpener :: inner.lexemes) ++ [varCloser]) :=
    ⟨reads_var _, reads_nameLexeme hname (.inr rfl) _, reads_comma _, reads_spaces hblank (by simp [blank]) hp.head, hp.tiled⟩
  have hinner : inner.Matched := ⟨rfl, rfl, rfl, hm.of_leaves⟩
  have hfallback : fallbackOf (leaves [⟨.comma, [','], 0⟩, blank] core) = .ok (.some core) :=
    fallbackOf_some.2 ⟨[], _, [blank], List.forall_mem_nil _, rfl, by simp [AllFiller, Token.isFiller, blank], rfl, hp.fixed⟩
  have hnew : String.ofList (Pieces.blockText varOpener inner (.some varCloser)) = varWithFallback ident text := by
    have htext : text.toList = spaces.flatMap (·.text) ++ core.text := by
      rw [← text_leaves, ← hp.pieces, Pieces.text_ofText]
    apply String.toList_injective
    simp [inner, blank, Pieces.blockText, Pieces.text_leaf, varOpener, varCloser, nameLexeme, varWithFallback, hne, varText,
      htext]
  exact ⟨_, _, fits_var hls hmay hinner hc.of_leaves ⟨rfl, rfl, rfl, hl.of_leaves⟩ ht
    (fun hv => .guarded rfl (varParts_nameLexeme hname hfallback) hp.reads hv) hnew (String.append_empty.trans hnew)⟩

/-- Wherever a reference is read that may be replaced, a reference to the custom
property can stand with the text as its fallback. Where the property stands for
nothing, it means the text. -/
theorem IsFallback.fits (h : IsFallback sigil text) (hname : FitsCustom ident.text.toList)
    (hls : ReferenceLexemes sigil r ls) (hmay : may r.name = true) :
    ∃ q x, Fits (Loose sigil may) sigil ls (varWithFallback ident text) q x ∧
      ∀ find, (∀ raw, find ⟨ident.text, raw, .var⟩ = .ok .none) → meaning find x = .ok (inked text) := by
  by_cases hne : text = ""
  · obtain ⟨q, raw, hq⟩ := fits_bare hname hls hmay
    refine ⟨q, _, hne ▸ hq, fun find hfind => ?_⟩
    rw [meaning_reference, meaning_guarded, hfind, hne]
    rfl
  · obtain ⟨spaces, core, x, hp⟩ := h.pieces
    obtain ⟨q, raw, hq⟩ := hp.fits h hne hname hls hmay
    refine ⟨q, _, hq, fun find hfind => ?_⟩
    have hx : meaning find x = .ok (inked text) := by
      have hvalue := congrArg (meaning find) hp.value
      rw [meaning_consText, meaning_consText, inked_spaces hp.blank, joining_nil, meaning_done] at hvalue
      rw [← hvalue]
      exact congrArg Except.ok (List.append_nil _)
    rw [meaning_guarded, hfind]
    exact (congrArg (joining · (.ok [])) hx).trans (congrArg Except.ok (List.append_nil _))

end

end Value

end ThemeVars
