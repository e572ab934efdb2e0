/-
Values whose paths are replaced, read again. `moved` does to pieces what the
replacement does to the text; where each new path can be written without
escapes, the text is read as these pieces, so that it names the new paths in the
place of the old, and in their order.
-/
import ThemeVars.Proofs.Sheet.Printing
import ThemeVars.Proofs.Token.Enclosed
import ThemeVars.Proofs.Value.Resource
import ThemeVars.Proofs.Value.Sealing

namespace ThemeVars

variable {f : String → Option String} {inFiles : Bool}

/-! ## One lexeme -/

namespace ResourcePart

theorem ofPieces_leaf_eq (inFiles : Bool) (l : Lexeme) (rest : Pieces) :
    ofPieces inFiles (.leaf l rest) =
      (ofLexeme inFiles l >>= fun part => ofPieces inFiles rest >>= fun parts => pure (part :: parts)) := by
  rfl

/-- The part with another path where `f` gives one. -/
def moved (f : String → Option String) (part : ResourcePart) : ResourcePart :=
  match part with
  | .text s => .text s
  | .url path raw =>
    match f path with
    | .some new => .url new ("url(" ++ new ++ ")")
    | .none => .url path raw
  | .string path raw =>
    match f path with
    | .some new =>
      let quote := String.ofList (raw.toList.take 1)
      .string new (quote ++ new ++ quote)
    | .none => .string path raw

theorem source_moved (part : ResourcePart) : (part.moved f).source = part.rewrite f := by
  cases part with
  | text s => rfl
  | url path raw =>
    simp only [moved, rewrite]
    cases f path <;> rfl
  | string path raw =>
    simp only [moved, rewrite]
    cases f path <;> rfl

theorem path?_moved (part : ResourcePart) : (part.moved f).path? = part.path?.map fun path => (f path).getD path := by
  cases part with
  | text s => rfl
  | url path raw =>
    simp only [moved]
    cases h : f path <;> simp [path?, h]
  | string path raw =>
    simp only [moved]
    cases h : f path <;> simp [path?, h]

/-- A path that takes the place of another needs no escape there. -/
def Fits (f : String → Option String) : ResourcePart → Prop
  | .text _ => True
  | .url path _ => ∀ new, f path = .some new → FitsUrl new.toList
  | .string path raw => ∀ new, f path = .some new → ∀ q, raw.toList.head? = .some q → FitsQuotes q new.toList

end ResourcePart

/-- The lexeme with another path where `f` gives one. -/
def Lexeme.moved (f : String → Option String) (inFiles : Bool) (l : Lexeme) : Lexeme :=
  match l.token with
  | .url path =>
    match f path with
    | .some new => ⟨.url new, ("url(" ++ new ++ ")").toList, l.start⟩
    | .none => l
  | .string path =>
    match inFiles, f path with
    | true, .some new => ⟨.string new, l.text.take 1 ++ new.toList ++ l.text.take 1, l.start⟩
    | _, _ => l
  | _ => l

open ResourcePart

theorem ofLexeme_moved (inFiles : Bool) (l : Lexeme) :
    ofLexeme inFiles (l.moved f inFiles) = (ofLexeme inFiles l).map (·.moved f) := by
  obtain ⟨token, text, start⟩ := l
  cases token
  case url path =>
    simp only [Lexeme.moved, ofLexeme]
    cases h : f path with
    | none => simp only [Except.map, ResourcePart.moved, h]
    | some new => simp only [Except.map, ResourcePart.moved, h, String.ofList_toList]
  case string path =>
    simp only [Lexeme.moved]
    cases inFiles
    · rfl
    · simp only [ofLexeme]
      cases h : f path with
      | none => simp only [Except.map, if_true, ResourcePart.moved, h]
      | some new =>
        simp only [Except.map, if_true, ResourcePart.moved, h, String.ofList_append, String.ofList_toList,
          String.toList_ofList]
  all_goals rfl

/-- In a lexeme that was read, a path that fits is replaced by one. -/
theorem replaced_moved {l : Lexeme} {part : ResourcePart} {u : List Char} (hl : Reads l.text u l.token)
    (hpart : ofLexeme inFiles l = .ok part) (hfits : part.Fits f) : Replaced l (l.moved f inFiles) := by
  obtain ⟨token, text, start⟩ := l
  cases token
  case url path =>
    cases hpart
    simp only [Lexeme.moved]
    cases h : f path with
    | none => exact .kept _
    | some new =>
      have hnew : Replaced ⟨.url path, text, start⟩
          ⟨.url (String.ofList new.toList), "url(".toList ++ (new.toList ++ [')']), start⟩ := .url (hfits new h)
      simpa using hnew
  case string path =>
    simp only [Lexeme.moved]
    cases inFiles
    · exact .kept _
    · cases hpart
      cases h : f path with
      | none => exact .kept _
      | some new =>
        obtain ⟨q, cs, rfl, hq⟩ := hl.string
        have hnew : Replaced ⟨.string path, q :: cs, start⟩
            ⟨.string (String.ofList new.toList), q :: (new.toList ++ [q]), start⟩ := .string hq (hfits new h q (by simp))
        simpa using hnew
  all_goals exact .kept _

theorem opens?_moved (l : Lexeme) : (l.moved f inFiles).token.opens? = l.token.opens? := by
  obtain ⟨token, text, start⟩ := l
  cases token
  case url path =>
    simp only [Lexeme.moved]
    cases f path <;> rfl
  case string path =>
    simp only [Lexeme.moved]
    cases inFiles <;> cases f path <;> rfl
  all_goals rfl

theorem isClosing_moved (bracket : Bracket) (l : Lexeme) :
    (l.moved f inFiles).token.isClosing bracket = l.token.isClosing bracket := by
  obtain ⟨token, text, start⟩ := l
  cases token
  case url path =>
    simp only [Lexeme.moved]
    cases f path <;> rfl
  case string path =>
    simp only [Lexeme.moved]
    cases inFiles <;> cases f path <;> rfl
  all_goals rfl

/-! ## Pieces -/

namespace Pieces

/-- The sequence with other paths where `f` gives them. -/
def moved (f : String → Option String) (inFiles : Bool) : Pieces → Pieces
  | .done => .done
  | .leaf l rest => .leaf (l.moved f inFiles) (rest.moved f inFiles)
  | .block opener bracket inner closer rest =>
    .block opener bracket (inner.moved f (namesFiles opener.token)) closer (rest.moved f inFiles)

theorem ofPieces_moved (inFiles : Bool) (p : Pieces) :
    ofPieces inFiles (p.moved f inFiles) = (ofPieces inFiles p).map (·.map (·.moved f)) := by
  induction p generalizing inFiles with
  | done => rfl
  | leaf l rest ih =>
    rw [moved, ofPieces_leaf_eq, ofPieces_leaf_eq, ofLexeme_moved, ih]
    cases ofLexeme inFiles l with
    | error e => rfl
    | ok part => cases ofPieces inFiles rest <;> rfl
  | block opener bracket inner closer rest ihi ih =>
    simp only [moved, ofPieces, ihi, ih]
    cases ofPieces (namesFiles opener.token) inner with
    | error e => rfl
    | ok inner =>
      cases ofPieces inFiles rest with
      | error e => rfl
      | ok rest => simp [bind, Except.bind, pure, Except.pure, Except.map, ResourcePart.moved]

theorem ofPieces_moved_ok {p : Pieces} {parts : List ResourcePart} (h : ofPieces inFiles p = .ok parts) :
    ofPieces inFiles (p.moved f inFiles) = .ok (parts.map (·.moved f)) := by
  rw [ofPieces_moved, h]
  rfl

theorem lacks_moved {bracket : Bracket} {p : Pieces} (h : p.Lacks bracket) : (p.moved f inFiles).Lacks bracket := by
  induction p with
  | done => trivial
  | leaf l rest ih => exact ⟨(isClosing_moved bracket l).trans h.1, ih h.2⟩
  | block opener kind inner closer rest _ ih => exact ih h

theorem closed_moved {p : Pieces} (h : p.Closed) : (p.moved f inFiles).Closed := by
  induction p generalizing inFiles with
  | done => trivial
  | leaf l rest ih => exact ih h
  | block opener bracket inner closer rest ihi ih => exact ⟨ihi h.1, h.2.1, ih h.2.2⟩

theorem matched_moved {p : Pieces} (h : p.Matched) : (p.moved f inFiles).Matched := by
  induction p generalizing inFiles with
  | done => trivial
  | leaf l rest ih => exact ⟨(opens?_moved l).trans h.1, ih h.2⟩
  | block opener bracket inner closer rest ihi ih =>
    obtain ⟨hopens, hlacks, hinner, hcloser, hnone, hrest⟩ := h
    refine ⟨hopens, lacks_moved hlacks, ihi hinner, fun l hl => ?_, fun hn => ?_, ih hrest⟩
    · exact ⟨(hcloser l hl).1, closed_moved (hcloser l hl).2⟩
    · rw [hnone hn]
      rfl

/-- In pieces that were read, each path that fits is replaced by one. -/
theorem replaced_lexemes {p : Pieces} {parts : List ResourcePart} (hp : ∀ l ∈ p.lexemes, ∃ u, Reads l.text u l.token)
    (hparts : ofPieces inFiles p = .ok parts) (hfits : ∀ part ∈ parts, part.Fits f) :
    List.Forall₂ Replaced p.lexemes (p.moved f inFiles).lexemes := by
  induction p generalizing inFiles parts with
  | done => exact .nil
  | leaf l rest ih =>
    obtain ⟨⟨u, hl⟩, hrest⟩ := List.forall_mem_cons.1 hp
    rw [ofPieces_leaf_eq] at hparts
    obtain ⟨part, hpart, hparts⟩ := bind_ok.1 hparts
    obtain ⟨others, hothers, hparts⟩ := bind_ok.1 hparts
    cases hparts
    obtain ⟨hfit, hfits⟩ := List.forall_mem_cons.1 hfits
    exact .cons (replaced_moved hl hpart hfit) (ih hrest hothers hfits)
  | block opener bracket inner closer rest ihi ih =>
    obtain ⟨inner', hinner, hparts⟩ := bind_ok.1 hparts
    obtain ⟨rest', hrest, hparts⟩ := bind_ok.1 hparts
    cases hparts
    have hkept (ls : List Lexeme) : List.Forall₂ Replaced ls ls := by
      induction ls with
      | nil => exact .nil
      | cons l ls ih => exact .cons (.kept l) ih
    simp only [lexemes, moved]
    refine List.rel_append (List.rel_append (.cons (.kept opener) ?_) (hkept _)) ?_
    · exact ihi (fun l hl => hp l (by simp [lexemes, hl])) hinner fun part hpart => hfits part (by simp [hpart])
    · exact ih (fun l hl => hp l (by simp [lexemes, hl])) hrest fun part hpart => hfits part (by simp [hpart])

/-- Pieces that were read are so with such paths as well. -/
theorem tiled_moved {p : Pieces} {parts : List ResourcePart} (ht : Tiled p.lexemes)
    (hparts : ofPieces inFiles p = .ok parts) (hfits : ∀ part ∈ parts, part.Fits f) :
    Tiled (p.moved f inFiles).lexemes :=
  (tiled_replaced (replaced_lexemes (fun _ hl => ht.reads hl) hparts hfits) ht).1

/-- Where the text of the parts comes from: the pieces, with the brackets that
they lack. -/
theorem text_of_parts {p : Pieces} {parts : List ResourcePart} (hparts : ofPieces inFiles p = .ok parts)
    (hm : p.Matched) (hs : Sheet.AllSpelled p) : (String.join (parts.map source)).toList = p.sealed.text := by
  induction p generalizing inFiles parts with
  | done =>
    cases hparts
    rfl
  | leaf l rest ih =>
    obtain ⟨part, others, hsource, hothers, rfl⟩ := ofPieces_leaf hparts
    rw [List.map_cons, String.join_cons, String.toList_append, hsource, ih hothers hm.2 hs.leaf.2, sealed,
      Pieces.text_leaf, String.toList_ofList]
  | block opener bracket inner closer rest ihi ih =>
    obtain ⟨inner', hinner, hparts⟩ := bind_ok.1 hparts
    obtain ⟨rest', hrest, hparts⟩ := bind_ok.1 hparts
    cases hparts
    obtain ⟨-, -, hminner, hcloser, -, hmrest⟩ := hm
    obtain ⟨-, hsinner, hscloser, hsrest⟩ := hs.block
    have hclose : (closer.getD ⟨.closing bracket, bracket.closer.toList, 0⟩).text = bracket.closer.toList := by
      cases closer with
      | none => rfl
      | some l =>
        have hl := hscloser l rfl
        rw [(hcloser l rfl).1] at hl
        exact hl.closing
    rw [sealed, Pieces.text_block, blockText, Option.toList_some, List.flatMap_singleton, hclose, ← ihi hinner hminner hsinner,
      ← ih hrest hmrest hsrest]
    simp [String.join_cons, source]

theorem ofPieces_sealed (inFiles : Bool) (p : Pieces) : ofPieces inFiles p.sealed = ofPieces inFiles p := by
  induction p generalizing inFiles with
  | done => rfl
  | leaf l rest ih => rw [sealed, ofPieces_leaf_eq, ofPieces_leaf_eq, ih]
  | block opener bracket inner closer rest ihi ih => simp only [sealed, ofPieces, ihi, ih]

/-- Where the lexemes stand is of no account for the parts. -/
theorem ofPieces_unplaced (inFiles : Bool) (p : Pieces) :
    Together (· = ·) (ofPieces inFiles (p.map Lexeme.unplaced)) (ofPieces inFiles p) := by
  induction p generalizing inFiles with
  | done => exact .ok rfl
  | leaf l rest ih =>
    have hl : Together (· = ·) (ofLexeme inFiles l.unplaced) (ofLexeme inFiles l) := by
      obtain ⟨token, text, start⟩ := l
      cases token <;> first | exact .ok rfl | exact .error
    rw [map, ofPieces_leaf_eq, ofPieces_leaf_eq]
    refine hl.bind fun part part' hpart => (ih inFiles).bind fun parts parts' hparts => .ok ?_
    rw [hpart, hparts]
  | block opener bracket inner closer rest ihi ih =>
    simp only [map, ofPieces]
    refine (ihi _).bind fun inner inner' hinner => (ih inFiles).bind fun rest rest' hrest => .ok ?_
    rw [hinner, hrest]
    rfl

/-- The text of pieces in which the paths that fit are replaced is read as
these pieces. -/
theorem ofPieces_ofText_moved {p : Pieces} {parts : List ResourcePart} (hm : p.Matched) (ht : Tiled p.lexemes)
    (hparts : ofPieces inFiles p = .ok parts) (hfits : ∀ part ∈ parts, part.Fits f) :
    ofPieces inFiles (ofText (p.moved f inFiles).text) = .ok (parts.map (·.moved f)) := by
  have htiled := tiled_moved ht hparts hfits
  have hmoved := ofPieces_moved_ok (f := f) hparts
  have hsame := ofPieces_unplaced inFiles (ofText (p.moved f inFiles).text)
  rw [ofText_text (matched_moved hm) htiled] at hsame
  exact hsame.eq_ok.1 ((ofPieces_unplaced inFiles _).eq_ok.2 hmoved)

/-- What is written of closed pieces is the text in which the paths are
replaced. -/
theorem text_of_rewrite {p : Pieces} {parts : List ResourcePart} (hm : p.Matched) (ht : Tiled p.lexemes) (hc : p.Closed)
    (hparts : ofPieces inFiles p = .ok parts) (hfits : ∀ part ∈ parts, part.Fits f) :
    (String.join (parts.map (·.rewrite f))).toList = (p.moved f inFiles).text := by
  have htiled := tiled_moved ht hparts hfits
  have hmoved := ofPieces_moved_ok (f := f) hparts
  have htext := text_of_parts hmoved (matched_moved hm) fun l hl => (htiled.reads hl).choose_spec.spelled
  rw [sealed_of_closed (closed_moved hc)] at htext
  rw [← htext, List.map_map]
  congr 3
  funext part
  exact (source_moved part).symm

end Pieces

namespace Value

/-- No path that takes the place of another in the value needs an escape. -/
def PathsFit (f : String → Option String) (value : String) : Prop :=
  ∀ parts, resourceParts value = .ok parts → ∀ part ∈ parts, part.Fits f

variable {value w : String} {parts : List ResourcePart}

/-- A value whose paths are replaced by such as fit is read as its parts are,
each with the path that takes the place of its own. -/
theorem resourceParts_rewrite (hparts : resourceParts value = .ok parts) (hfits : PathsFit f value)
    (hclosers : TakesClosers value) (hw : rewriteResources f value = .ok w) :
    resourceParts w = .ok (parts.map (·.moved f)) := by
  have hfits := hfits parts hparts
  have hmatched := Pieces.matched_sealed (Pieces.matched_ofLexemes (ThemeVars.lexemes value.toList))
  have hsealed := (Pieces.ofPieces_sealed false (.ofText value.toList)).trans hparts
  rw [rewriteResources_eq, hparts] at hw
  cases hw
  rw [resourceParts, Pieces.text_of_rewrite hmatched hclosers (Pieces.closed_sealed _) hsealed hfits]
  exact Pieces.ofPieces_ofText_moved hmatched hclosers hsealed hfits

/-- Such a value names the same files, with the new paths in the place of the
old, in the same order. -/
theorem resourcePaths_rewrite (hfits : PathsFit f value) (hclosers : TakesClosers value)
    (hw : rewriteResources f value = .ok w) :
    ∃ paths, resourcePaths value = .ok paths ∧ resourcePaths w = .ok (paths.map fun path => (f path).getD path) := by
  obtain ⟨parts, hparts, -⟩ := map_ok.1 ((rewriteResources_eq f value).symm.trans hw)
  refine ⟨parts.filterMap ResourcePart.path?, by rw [resourcePaths_eq, hparts]; rfl, ?_⟩
  rw [resourcePaths_eq, resourceParts_rewrite hparts hfits hclosers hw]
  simp only [Except.map, List.filterMap_map, List.map_filterMap, Function.comp_def, ResourcePart.path?_moved]

end Value

end ThemeVars
