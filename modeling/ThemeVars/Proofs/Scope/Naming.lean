/-
What an animation names. `names_rename`: a value in which the names of keyframes
are replaced is read as the value was, with the new names in the place of the
old, where each new name can be written without escapes.
-/
import ThemeVars.Proofs.Scope.Animation

namespace ThemeVars

namespace Token

/-- The name that an identifier or a string is. -/
def name? : Token → Option String
  | .ident name => .some name
  | .string name => .some name
  | _ => .none

/-- The token with another name. -/
def withName (new : String) : Token → Token
  | .ident _ => .ident new
  | .string _ => .string new
  | t => t

end Token

/-! ## A bracket at the end of a text -/

/-- What is seen of a text does not change with a closing bracket at its end. -/
theorem outlook_closer (bracket : Bracket) {x : List Char} (hx : x ≠ []) :
    outlook (x ++ bracket.closer.toList) = outlook x := by
  obtain ⟨y, c, rfl⟩ : ∃ y c, x = y ++ [c] := ⟨x.dropLast, x.getLast hx, (List.dropLast_concat_getLast hx).symm⟩
  -- only the first character is seen of the bracket, and nothing looks for it
  obtain ⟨d, hd, hout⟩ : ∃ d, d ∈ [')', ']', '\x7d'] ∧ outlook bracket.closer.toList = { head := .some d } := by
    cases bracket <;> refine ⟨_, ?_, rfl⟩ <;> decide
  have hlast : outlook (c :: bracket.closer.toList) = outlook [c] := by
    simp only [List.mem_cons, List.not_mem_nil, or_false] at hd
    rw [outlook_cons, outlook_cons, hout, outlook_nil]
    rcases hd with rfl | rfl | rfl <;> simp [Outlook.step, Text.isNewline, isNameStart]
  rw [List.append_assoc, outlook_append y, outlook_append y, List.singleton_append, hlast]

theorem reads_opening {bracket : Bracket} {x u : List Char} (h : Reads x u (.opening bracket)) (v : List Char) :
    Reads x v (.opening bracket) := by
  cases bracket <;> rw [h.sign rfl] <;> exact ⟨_, [], rfl, rfl⟩

/-- What opens a block does so with a closing bracket at the end of the text. -/
theorem Reads.opens_closer {x u : List Char} {t : Token} {kind : Bracket} (h : Reads x u t)
    (ht : t.opens? = .some kind) (bracket : Bracket) : Reads x (u ++ bracket.closer.toList) t := by
  cases t with
  | opening => exact reads_opening h _
  | function name =>
    by_cases hu : u = []
    · subst hu
      exact h.function_nil _
    · exact h.congr (outlook_closer bracket hu).symm
  | _ => cases ht

namespace Pieces

variable {bracket : Bracket}

theorem lacks_map {g : Lexeme → Lexeme} (hg : ∀ l, (g l).token = l.token) (p : Pieces) :
    (p.map g).Lacks bracket ↔ p.Lacks bracket := by
  induction p with
  | done => exact Iff.rfl
  | leaf l rest ih => exact and_congr (by rw [hg]) ih
  | block opener kind inner closer rest _ ih => exact ih

theorem lexemes_ne_nil {p : Pieces} (h : p ≠ .done) : p.lexemes ≠ [] := by
  cases p with
  | done => exact absurd rfl h
  | leaf => exact List.cons_ne_nil _ _
  | block => exact List.cons_ne_nil _ _

/-- A bracket at the end of a text closes no block before it: what would be cut
off with more after it is closed in the text already. -/
theorem cutAt_ofText_closer {s : List Char} (hs : (ofText s).Lacks bracket) {l : Lexeme} {rest : Pieces}
    (hcut : ((ofText (s ++ bracket.closer.toList)).cutAt bracket).2 = .some (l, rest)) : rest = .done := by
  by_contra hrest
  have hm : (ofText (s ++ bracket.closer.toList)).Matched := matched_ofLexemes _
  obtain ⟨hminner, hcutm⟩ := matched_cutAt bracket hm
  obtain ⟨htoken, hmrest⟩ := hcutm l rest hcut
  have hclosed := closed_cutAt bracket hm (by rw [hcut]; exact Option.some_ne_none _)
  have hlexemes := lexemes_cutAt bracket (ofText (s ++ bracket.closer.toList))
  rw [hcut] at hlexemes
  generalize ((ofText (s ++ bracket.closer.toList)).cutAt bracket).1 = inner at *
  have htiled : Tiled (inner.lexemes ++ l :: rest.lexemes) := by
    rw [← hlexemes, ofText, lexemes_ofLexemes]
    exact tiled_lexemes _
  have htext : inner.text ++ (l.text ++ rest.text) = s ++ bracket.closer.toList := by
    have htext := congrArg (List.flatMap (·.text)) hlexemes
    rw [← text, text_ofText, List.flatMap_append, List.flatMap_cons] at htext
    exact htext.symm
  -- the bracket is the last character of what is cut off, so the text is read alike without it
  obtain ⟨r, hr⟩ : ∃ r, rest.text = r ++ bracket.closer.toList := by
    obtain ⟨c, hc⟩ : ∃ c, bracket.closer.toList = [c] := by cases bracket <;> exact ⟨_, rfl⟩
    obtain ⟨m, ms, hms⟩ := List.exists_cons_of_ne_nil (lexemes_ne_nil hrest)
    have hmtext : m.text ≠ [] := (htiled.reads (show m ∈ _ by simp [hms])).choose_spec.ne_nil
    have hne : rest.text ≠ [] := by simp [text, hms, hmtext]
    rw [hc] at htext ⊢
    rw [← List.dropLast_concat_getLast hne, ← List.append_assoc, ← List.append_assoc] at htext
    obtain ⟨-, hlast⟩ := List.append_inj' htext rfl
    exact ⟨rest.text.dropLast, by rw [← hlast, List.dropLast_concat_getLast hne]⟩
  have hsplit : inner.text ++ (l.text ++ r) = s := by
    rw [hr, ← List.append_assoc, ← List.append_assoc] at htext
    rw [← List.append_assoc]
    exact List.append_cancel_right htext
  have hl : l.text = bracket.closer.toList := by
    have hspelled := (htiled.reads (show l ∈ _ by simp)).choose_spec.spelled
    rw [htoken] at hspelled
    exact hspelled.closing
  have htail : Tiled (l :: ThemeVars.lexemes r) := by
    refine ⟨?_, tiled_lexemes r⟩
    rw [hl, htoken]
    exact reads_closing bracket _
  have hseen : outlook ((l :: rest.lexemes).flatMap (·.text)) = outlook ((l :: ThemeVars.lexemes r).flatMap (·.text)) := by
    have hne : l.text ++ r ≠ [] := by rw [hl]; cases bracket <;> exact List.cons_ne_nil _ _
    rw [List.flatMap_cons, List.flatMap_cons, lexemes_text, ← text, hr, ← List.append_assoc, outlook_closer bracket hne]
  have htiled' := (tiled_append htiled htail (.inl hseen)).1
  have hsame := ofText_text (matched_ofLexemes _) (by rw [lexemes_ofLexemes]; exact htiled')
  rw [text, lexemes_ofLexemes, List.flatMap_append, List.flatMap_cons, lexemes_text, ← text, hsplit] at hsame
  rw [← lacks_map fun l => (rfl : l.unplaced.token = l.token), hsame, lacks_map fun l => (rfl : l.unplaced.token = l.token),
    ofLexemes_append hminner _ (.inl hclosed), lacks_append] at hs
  have hleaf : ofLexemes (l :: ThemeVars.lexemes r) = .leaf l (ofText r) := by
    rw [ofLexemes, List.foldr_cons, cons, opens?_of_closing htoken]
    rfl
  rw [hleaf, Lacks, htoken] at hs
  simp [Token.isClosing] at hs

end Pieces

namespace Animation

/-! ## Names -/

/-- The names outside of blocks. -/
def namesIn : Pieces → List String
  | .done => []
  | .leaf l rest => l.token.name?.toList ++ namesIn rest
  | .block _ _ _ _ rest => namesIn rest

/-- What a value names: its identifiers and strings outside of blocks. -/
def names (value : String) : List String := namesIn (.ofText value.toList)

variable {renames : Renaming} {p : Pieces}

theorem namesIn_map {g : Lexeme → Lexeme} (hg : ∀ l, (g l).token = l.token) (p : Pieces) :
    namesIn (p.map g) = namesIn p := by
  induction p with
  | done => rfl
  | leaf l rest ih => rw [Pieces.map, namesIn, hg, ih, namesIn]
  | block opener bracket inner closer rest _ ih => exact ih

/-- The names in a text are those in the pieces that it is read as. -/
theorem namesIn_ofText (hm : p.Matched) (ht : Tiled p.lexemes) : namesIn (.ofText p.text) = namesIn p := by
  have htoken (l : Lexeme) : l.unplaced.token = l.token := rfl
  rw [← namesIn_map htoken, Pieces.ofText_text hm ht, namesIn_map htoken]

/-- A block that is left open names nothing outside of it, with a bracket at
its end or without. -/
theorem exists_shut {opener : Lexeme} {bracket : Bracket} {inner : Pieces} (ho : opener.token.opens? = .some bracket)
    (hm : inner.Matched) (hl : inner.Lacks bracket) (ht : Tiled (opener :: inner.lexemes)) :
    ∃ q : Pieces, q.Matched ∧ Tiled q.lexemes ∧ q.text = opener.text ++ inner.text ++ bracket.closer.toList ∧
      namesIn q = [] ∧ SeenAlike (opener.text ++ inner.text) q.text := by
  have hlacks : (Pieces.ofText inner.text).Lacks bracket := by
    have htoken (l : Lexeme) : l.unplaced.token = l.token := rfl
    rwa [← Pieces.lacks_map htoken, Pieces.ofText_text hm ht.2, Pieces.lacks_map htoken]
  have hlexemes := Pieces.lexemes_cons opener (.ofText (inner.text ++ bracket.closer.toList))
  rw [Pieces.ofText, Pieces.lexemes_ofLexemes, ← Pieces.ofText] at hlexemes
  have hread : Reads opener.text (inner.text ++ bracket.closer.toList) opener.token := ht.1.opens_closer ho bracket
  have htext : (Pieces.cons opener (.ofText (inner.text ++ bracket.closer.toList))).text =
      opener.text ++ (inner.text ++ bracket.closer.toList) := by
    rw [Pieces.text, hlexemes, List.flatMap_cons, lexemes_text]
  refine ⟨.cons opener (.ofText (inner.text ++ bracket.closer.toList)), Pieces.matched_cons _ (Pieces.matched_ofLexemes _),
    ?_, by rw [htext, List.append_assoc], ?_, .inl ?_⟩
  · rw [hlexemes]
    exact ⟨by rwa [lexemes_text], tiled_lexemes _⟩
  · simp only [Pieces.cons, ho]
    rcases hcut : (Pieces.ofText (inner.text ++ bracket.closer.toList)).cutAt bracket with ⟨inner', _ | ⟨closer, rest⟩⟩
    · rfl
    · have hrest := Pieces.cutAt_ofText_closer hlacks (congrArg Prod.snd hcut)
      rw [hrest]
      rfl
  · obtain ⟨c, hc, hblocks⟩ : ∃ c ∈ opener.text, Outlook.blocks c = true := by
      refine ht.1.blocks ?_ ?_ ?_
      · cases hopener : opener.token <;> first | rfl | (rw [hopener] at ho; cases ho)
      · rintro hopener
        rw [hopener] at ho
        cases ho
      · rintro c hopener
        rw [hopener] at ho
        cases ho
    rw [htext, outlook_append, outlook_append]
    exact Outlook.through_of_blocks hc hblocks _ _

/-! ## New names -/

theorem newName?_eq (t : Token) : newName? renames t = t.name?.bind (find? renames) := by
  cases t <;> rfl

end Animation

namespace Lexeme

open Animation

variable {renames : Renaming}

/-- The lexeme with the new name of the keyframes that it names. -/
def renamed (renames : Renaming) (l : Lexeme) : Lexeme :=
  match newName? renames l.token with
  | .none => l
  | .some new => ⟨l.token.withName new, quoteOf l.token l.text ++ new.toList ++ quoteOf l.token l.text, l.start⟩

/-- The new name needs no escape in the place of the lexeme's own, and begins
with two hyphens as that does. -/
def TakesName (l : Lexeme) (new : List Char) : Prop :=
  match l.token with
  | .ident _ => FitsName new ∧ (['-', '-'] <+: l.text ↔ ['-', '-'] <+: new)
  | .string _ => ∀ q, l.text.head? = .some q → FitsQuotes q new
  | _ => True

theorem text_renamed (l : Lexeme) : (l.renamed renames).text = (Part.token l).renamed renames := by
  simp only [renamed, Part.renamed]
  cases newName? renames l.token <;> rfl

theorem opens?_renamed (l : Lexeme) : (l.renamed renames).token.opens? = l.token.opens? := by
  unfold renamed
  cases newName? renames l.token with
  | none => rfl
  | some new => cases l.token <;> rfl

theorem name?_renamed (l : Lexeme) :
    (l.renamed renames).token.name? = l.token.name?.map fun k => (find? renames k).getD k := by
  obtain ⟨token, text, start⟩ := l
  unfold renamed
  rw [newName?_eq]
  cases hname : token.name? with
  | none => simp [hname]
  | some name =>
    cases hnew : find? renames name with
    | none => simp [hname, hnew]
    | some new =>
      cases token with
      | ident => simp [hnew, Token.withName, Token.name?]
      | string => simp [hnew, Token.withName, Token.name?]
      | _ => cases hname

/-- In a lexeme that was read, a name that it takes is put. -/
theorem replaced_renamed {l : Lexeme} {u : List Char} (hl : Reads l.text u l.token)
    (hfits : ∀ new, newName? renames l.token = .some new → l.TakesName new.toList) : Replaced l (l.renamed renames) := by
  unfold renamed
  cases hnew : newName? renames l.token with
  | none => exact .kept l
  | some new =>
    have htakes := hfits new hnew
    obtain ⟨token, text, start⟩ := l
    cases token with
    | ident name =>
      have hident : Replaced ⟨.ident name, text, start⟩ ⟨.ident (String.ofList new.toList), new.toList, start⟩ :=
        .ident htakes.1 htakes.2
      simpa [Token.withName, quoteOf] using hident
    | string name =>
      obtain ⟨q, cs, rfl, hq⟩ := hl.string
      have hstring : Replaced ⟨.string name, q :: cs, start⟩
          ⟨.string (String.ofList new.toList), q :: (new.toList ++ [q]), start⟩ := .string hq (htakes q rfl)
      simpa [Token.withName, quoteOf] using hstring
    | _ => cases hnew

end Lexeme

namespace Animation

variable {renames : Renaming} {p : Pieces}

/-- The text with the new names is read as pieces that name them in the place of
the old: an induction from the last piece, by what those before can see. -/
theorem exists_renamed (hm : p.Matched) (ht : Tiled p.lexemes)
    (hfits : ∀ l new, .token l ∈ parts p → newName? renames l.token = .some new → l.TakesName new.toList) :
    ∃ q : Pieces, q.Matched ∧ Tiled q.lexemes ∧ q.text = renamedText renames p ∧
      namesIn q = (namesIn p).map (fun k => (find? renames k).getD k) ∧ SeenAlike p.text q.text := by
  induction p with
  | done => exact ⟨.done, trivial, trivial, rfl, rfl, .inl rfl⟩
  | leaf l rest ih =>
    obtain ⟨q, hmq, htq, htext, hnames, hseen⟩ :=
      ih hm.2 ht.2 fun l new hmem => hfits l new (List.mem_cons_of_mem _ hmem)
    have hreplaced := Lexeme.replaced_renamed ht.1 fun new => hfits l new List.mem_cons_self
    obtain ⟨hread, hseen'⟩ := hreplaced.reads ht.1 hseen
    refine ⟨.leaf (l.renamed renames) q, ⟨(Lexeme.opens?_renamed l).trans hm.1, hmq⟩, ⟨hread, htq⟩, ?_, ?_, ?_⟩
    · rw [Pieces.text_leaf, htext, renamedText, Lexeme.text_renamed]
    · rw [namesIn, hnames, Lexeme.name?_renamed, namesIn, List.map_append]
      cases l.token.name? <;> rfl
    · rw [Pieces.text_leaf, Pieces.text_leaf]
      exact hseen'
  | block opener bracket inner closer rest _ ih =>
    obtain ⟨hopens, hlacks, hminner, hcloser, hnone, hmrest⟩ := hm
    cases closer with
    | none =>
      obtain rfl := hnone rfl
      simp only [Pieces.lexemes, Option.toList_none, List.append_nil] at ht
      obtain ⟨q, hmq, htq, htext, hnames, hseen⟩ := exists_shut hopens hminner hlacks ht
      refine ⟨q, hmq, htq, by rw [htext, renamedText, renamedText, List.append_nil], hnames, ?_⟩
      rw [Pieces.text_block, Pieces.blockText]
      simpa [Pieces.text, Pieces.lexemes] using hseen
    | some l =>
      simp only [Pieces.lexemes, Option.toList_some] at ht
      have htrest : Tiled rest.lexemes := ht.of_append
      obtain ⟨q, hmq, htq, htext, hnames, hseen⟩ := ih hmrest htrest fun l new hmem => hfits l new (List.mem_cons_of_mem _ hmem)
      obtain ⟨htiled, hseen'⟩ := tiled_append ht htq hseen
      have hl : l.text = bracket.closer.toList := by
        have hspelled := (ht.reads (show l ∈ _ by simp)).choose_spec.spelled
        rw [(hcloser l rfl).1] at hspelled
        exact hspelled.closing
      refine ⟨.block opener bracket inner (.some l) q, ⟨hopens, hlacks, hminner, hcloser, fun h => absurd h (Option.some_ne_none l), hmq⟩,
        htiled, ?_, hnames, hseen'⟩
      rw [Pieces.text_block, htext, renamedText, Pieces.blockText, Option.toList_some, List.flatMap_singleton, hl]

/-- What the new names in a value need to be read as they are. -/
structure Renamable (renames : Renaming) (value : String) : Prop where
  /-- The inside of no curly block is lost. -/
  followed : followed renames false (valueParts value) = true
  takes : ∀ l new, .token l ∈ valueParts value → newName? renames l.token = .some new → l.TakesName new.toList

/-- Such a value names the new keyframes in the place of the old. -/
theorem names_rename {value : String} (h : Renamable renames value) :
    names (rename renames value) = (names value).map fun k => (find? renames k).getD k := by
  have hm : (Pieces.ofText value.toList).Matched := Pieces.matched_ofLexemes _
  have ht : Tiled (Pieces.ofText value.toList).lexemes := by
    rw [Pieces.ofText, Pieces.lexemes_ofLexemes]
    exact tiled_lexemes _
  obtain ⟨q, hmq, htq, htext, hnames, -⟩ := exists_renamed hm ht h.takes
  have hwritten := renamePieces_of_followed hm (fun l hl => (ht.reads hl).choose_spec.spelled) h.followed fun _ => rfl
  rw [List.nil_append, ← htext] at hwritten
  rw [names, rename, String.toList_ofList, hwritten, namesIn_ofText hmq htq, hnames, names]

end Animation

end ThemeVars
