/-
The places of lexemes have no say in what is read from them.
`same_of_text`: pieces of one text are the same save for the places.
`ReadsAs.same`: what is read from such pieces is the same. `varParts_guarded`
says what stands in a reference with a fallback.
-/
import ThemeVars.Proofs.Token.Tiling
import ThemeVars.Proofs.Value.Reading

namespace ThemeVars

/-- The token and the text are what a lexeme is, save for its place. -/
theorem Lexeme.of_unplaced {l m : Lexeme} (h : l.unplaced = m.unplaced) : l.token = m.token ∧ l.text = m.text := by
  obtain ⟨token, text, start⟩ := l
  obtain ⟨token', text', start'⟩ := m
  simp only [Lexeme.unplaced, Lexeme.mk.injEq, and_true] at h
  exact h

theorem text_of_unplaced {ls ms : List Lexeme} (h : ls.map Lexeme.unplaced = ms.map Lexeme.unplaced) :
    ls.flatMap (·.text) = ms.flatMap (·.text) := by
  have htext (ls : List Lexeme) : ls.flatMap (·.text) = (ls.map Lexeme.unplaced).flatMap (·.text) := by
    rw [List.flatMap_map]
    rfl
  rw [htext, h, ← htext]

namespace Pieces

/-- The same lexemes in the same blocks, wherever they stand. -/
def Same (p q : Pieces) : Prop := p.map Lexeme.unplaced = q.map Lexeme.unplaced

theorem Same.symm {p q : Pieces} (h : Same p q) : Same q p := Eq.symm h

theorem Same.text {p q : Pieces} (h : Same p q) : p.text = q.text := by
  refine text_of_unplaced ?_
  rw [← lexemes_map, ← lexemes_map, h]

theorem Same.leaf {l : Lexeme} {p q : Pieces} (h : Same (leaf l p) q) :
    ∃ m q', q = .leaf m q' ∧ l.unplaced = m.unplaced ∧ Same p q' := by
  cases q with
  | leaf m q =>
    obtain ⟨hl, hp⟩ := Pieces.leaf.inj h
    exact ⟨m, q, rfl, hl, hp⟩
  | done => cases h
  | block => cases h

theorem Same.leaves {ls : List Lexeme} {p q : Pieces} (h : Same (leaves ls p) q) :
    ∃ ms q', q = Pieces.leaves ms q' ∧ ls.map Lexeme.unplaced = ms.map Lexeme.unplaced ∧ Same p q' := by
  induction ls generalizing q with
  | nil => exact ⟨[], q, rfl, rfl, h⟩
  | cons l ls ih =>
    obtain ⟨m, q, rfl, hl, hp⟩ := Same.leaf h
    obtain ⟨ms, q', rfl, hls, hp⟩ := ih hp
    exact ⟨m :: ms, q', rfl, by rw [List.map_cons, List.map_cons, hl, hls], hp⟩

theorem Same.block {opener : Lexeme} {bracket : Bracket} {inner rest q : Pieces} {closer : Option Lexeme}
    (h : Same (block opener bracket inner closer rest) q) :
    ∃ opener' inner' closer' rest', q = .block opener' bracket inner' closer' rest' ∧ opener.unplaced = opener'.unplaced ∧
      Same inner inner' ∧ Same rest rest' ∧ blockText opener inner closer = blockText opener' inner' closer' := by
  cases q with
  | block opener' bracket' inner' closer' rest' =>
    obtain ⟨ho, rfl, hi, hc, hr⟩ := Pieces.block.inj h
    refine ⟨opener', inner', closer', rest', rfl, ho, hi, hr, ?_⟩
    have hcloser : closer.toList.flatMap (·.text) = closer'.toList.flatMap (·.text) := by
      refine text_of_unplaced ?_
      rw [← Option.toList_map, ← Option.toList_map, hc]
    rw [blockText, blockText, (Lexeme.of_unplaced ho).2, Same.text hi, hcloser]
  | done => cases h
  | leaf => cases h

theorem same_done {q : Pieces} (h : Same .done q) : q = .done := by
  cases q with
  | done => rfl
  | leaf => cases h
  | block => cases h

theorem afterFiller_leaf {l : Lexeme} {p : Pieces} : (leaf l p).afterFiller = leaf l p ↔ l.token.isFiller = false := by
  rw [afterFiller, dropLeaves]
  constructor
  · intro h
    by_contra hl
    rw [if_pos (by simpa using hl)] at h
    have hsize := size_dropLeaves_le Token.isFiller p
    rw [h, size] at hsize
    omega
  · intro hl
    rw [hl]
    rfl

/-- Before the same lexemes, matched pieces of one text are the same. -/
theorem same_of_text {p q : Pieces} (hp : p.Matched) (hq : q.Matched) {ms : List Lexeme} (htp : Tiled (p.lexemes ++ ms))
    (htq : Tiled (q.lexemes ++ ms)) (h : p.text = q.text) : Same p q := by
  have htoken (l : Lexeme) : l.unplaced.token = l.token := rfl
  have htext : (p.lexemes ++ ms).flatMap (·.text) = (q.lexemes ++ ms).flatMap (·.text) := by
    rw [List.flatMap_append, List.flatMap_append]
    exact congrArg (· ++ _) h
  have hlexemes : p.lexemes.map Lexeme.unplaced = q.lexemes.map Lexeme.unplaced := by
    have hall := lexemesFrom_of_tiled htp 0
    rw [htext, lexemesFrom_of_tiled htq 0, List.map_append, List.map_append] at hall
    exact (List.append_cancel_right hall).symm
  have hsame := congrArg ofLexemes hlexemes
  rw [ofLexemes_map htoken, ofLexemes_map htoken, ofLexemes_lexemes hp, ofLexemes_lexemes hq] at hsame
  exact hsame

end Pieces

namespace Value

open Pieces (leaves Same)

variable {sigil : Option Char}

/-! ## The inside of a reference -/

/-- Space and comments only. -/
def AllFiller (ls : List Lexeme) : Prop := ∀ l ∈ ls, l.token.isFiller = true

theorem AllFiller.same {ls ms : List Lexeme} (h : AllFiller ls) (hs : ls.map Lexeme.unplaced = ms.map Lexeme.unplaced) :
    AllFiller ms := by
  intro m hm
  obtain ⟨l, hl, he⟩ := List.mem_map.1 (hs ▸ List.mem_map_of_mem hm)
  exact (Lexeme.of_unplaced he).1 ▸ h l hl

theorem AllComments.same {ls ms : List Lexeme} (h : AllComments ls)
    (hs : ls.map Lexeme.unplaced = ms.map Lexeme.unplaced) : AllComments ms := by
  intro m hm
  obtain ⟨l, hl, he⟩ := List.mem_map.1 (hs ▸ List.mem_map_of_mem hm)
  exact (Lexeme.of_unplaced he).1 ▸ h l hl

theorem afterFiller_leaves {ls : List Lexeme} (h : AllFiller ls) (p : Pieces) : (leaves ls p).afterFiller = p.afterFiller :=
  Pieces.dropLeaves_leaves h p

theorem exists_filler (p : Pieces) : ∃ ls, AllFiller ls ∧ p = leaves ls p.afterFiller := by
  obtain ⟨ls, hls, hp, -⟩ := Pieces.exists_leaves Token.isFiller p
  exact ⟨ls, hls, hp⟩

theorem afterFiller_afterFiller (p : Pieces) : p.afterFiller.afterFiller = p.afterFiller := by
  obtain ⟨ls, hls, hp⟩ := exists_filler p
  rw [← afterFiller_leaves hls, ← hp]

theorem fallbackOf_none {p : Pieces} : fallbackOf p = .ok .none ↔ ∃ ls, AllFiller ls ∧ p = leaves ls .done := by
  constructor
  · intro h
    obtain ⟨ls, hls, hp⟩ := exists_filler p
    unfold fallbackOf at h
    split at h
    · rename_i hdone
      exact ⟨ls, hls, hdone ▸ hp⟩
    · split at h <;> cases h
    · cases h
  · rintro ⟨ls, hls, rfl⟩
    rw [fallbackOf, afterFiller_leaves hls]
    rfl

theorem fallbackOf_some {p fallback : Pieces} : fallbackOf p = .ok (.some fallback) ↔
    ∃ ls c ms, AllFiller ls ∧ c.token = .comma ∧ AllFiller ms ∧ p = leaves ls (.leaf c (leaves ms fallback)) ∧
      fallback.afterFiller = fallback := by
  constructor
  · intro h
    obtain ⟨ls, hls, hp⟩ := exists_filler p
    unfold fallbackOf at h
    split at h
    · cases h
    · rename_i c rest hc
      split at h
      · rename_i hcomma
        cases h
        obtain ⟨ms, hms, hrest⟩ := exists_filler rest
        refine ⟨ls, c, ms, hls, by simpa using hcomma, hms, ?_, afterFiller_afterFiller rest⟩
        rw [← hrest, ← hc]
        exact hp
      · cases h
    · cases h
  · rintro ⟨ls, c, ms, hls, hc, hms, rfl, hfixed⟩
    rw [fallbackOf, afterFiller_leaves hls, Pieces.afterFiller_leaf.2 (by rw [hc]; rfl)]
    simp only [hc, beq_self_eq_true, if_true]
    rw [afterFiller_leaves hms, hfixed]

/-- The inside of a reference with a name: the name, and what follows it. -/
theorem varParts_named {inner : Pieces} {name : String} {fallback : Option Pieces} :
    varParts inner = .ok (name, fallback) ↔
      (∃ ls, AllFiller ls ∧ inner = leaves ls .done ∧ name = "" ∧ fallback = .none) ∨
        ∃ ls m rest, AllFiller ls ∧ m.token = .ident name ∧ name.beginsWith "--" = true ∧ inner = leaves ls (.leaf m rest) ∧
          fallbackOf rest = .ok fallback := by
  constructor
  · intro h
    obtain ⟨ls, hls, hp⟩ := exists_filler inner
    unfold varParts at h
    split at h
    · rename_i hdone
      cases h
      exact .inl ⟨ls, hls, hdone ▸ hp, rfl, rfl⟩
    · rename_i m rest hm
      split at h
      · rename_i x hx
        split at h
        · rename_i hhyphens
          obtain ⟨found, hfound, he⟩ := map_ok.1 h
          cases he
          exact .inr ⟨ls, m, rest, hls, hx, hhyphens, hm ▸ hp, hfound⟩
        · cases h
      · cases h
    · cases h
  · rintro (⟨ls, hls, rfl, rfl, rfl⟩ | ⟨ls, m, rest, hls, hm, hhyphens, rfl, hrest⟩)
    · rw [varParts, afterFiller_leaves hls]
      rfl
    · rw [varParts, afterFiller_leaves hls, Pieces.afterFiller_leaf.2 (by rw [hm]; rfl)]
      simp only [hm, hhyphens, if_true, hrest]
      rfl

/-- The fallback stands at the end, after its comma and the space there. -/
theorem varParts_guarded {inner fallback : Pieces} {name : String} (h : varParts inner = .ok (name, .some fallback)) :
    (∃ front, inner = leaves front fallback) ∧ fallback.afterFiller = fallback ∧ name.beginsWith "--" = true := by
  obtain ⟨ls, -, -, -, hnone⟩ | ⟨ls, m, rest, -, -, hhyphens, rfl, hrest⟩ := varParts_named.1 h
  · cases hnone
  · obtain ⟨ls', c, ms, -, -, -, rfl, hfixed⟩ := fallbackOf_some.1 hrest
    refine ⟨⟨ls ++ m :: (ls' ++ c :: ms), ?_⟩, hfixed, hhyphens⟩
    simp [leaves]

theorem fallbackOf_same {p q : Pieces} {fallback : Option Pieces} (h : fallbackOf p = .ok fallback) (hs : Same p q) :
    ∃ fallback', fallbackOf q = .ok fallback' ∧ fallback'.map (·.map Lexeme.unplaced) = fallback.map (·.map Lexeme.unplaced) := by
  cases fallback with
  | none =>
    obtain ⟨ls, hls, rfl⟩ := fallbackOf_none.1 h
    obtain ⟨ms, q, rfl, hms, hq⟩ := hs.leaves
    rw [Pieces.same_done hq]
    exact ⟨.none, fallbackOf_none.2 ⟨ms, hls.same hms, rfl⟩, rfl⟩
  | some fallback =>
    obtain ⟨ls, c, ms, hls, hc, hms, rfl, hfixed⟩ := fallbackOf_some.1 h
    obtain ⟨ls', q, rfl, hls', hq⟩ := hs.leaves
    obtain ⟨c', q, rfl, hc', hq⟩ := hq.leaf
    obtain ⟨ms', q, rfl, hms', hq⟩ := hq.leaves
    rw [(Lexeme.of_unplaced hc').1] at hc
    have hfixed' : q.afterFiller = q := by
      cases q with
      | done => rfl
      | block => rfl
      | leaf l q =>
        obtain ⟨l', q', rfl, hl, -⟩ := hq.symm.leaf
        rw [Pieces.afterFiller_leaf] at hfixed ⊢
        rw [(Lexeme.of_unplaced hl).1, hfixed]
    exact ⟨.some q, fallbackOf_some.2 ⟨ls', c', ms', hls.same hls', hc, hms.same hms', rfl, hfixed'⟩, by rw [Option.map_some, hq.symm]; rfl⟩

theorem varParts_same {p q : Pieces} {name : String} {fallback : Option Pieces} (h : varParts p = .ok (name, fallback))
    (hs : Same p q) :
    ∃ fallback', varParts q = .ok (name, fallback') ∧
      fallback'.map (·.map Lexeme.unplaced) = fallback.map (·.map Lexeme.unplaced) := by
  obtain ⟨ls, hls, rfl, rfl, rfl⟩ | ⟨ls, m, rest, hls, hm, hhyphens, rfl, hrest⟩ := varParts_named.1 h
  · obtain ⟨ms, q, rfl, hms, hq⟩ := hs.leaves
    rw [Pieces.same_done hq]
    exact ⟨.none, varParts_named.2 (.inl ⟨ms, hls.same hms, rfl, rfl, rfl⟩), rfl⟩
  · obtain ⟨ls', q, rfl, hls', hq⟩ := hs.leaves
    obtain ⟨m', q, rfl, hm', hq⟩ := hq.leaf
    rw [(Lexeme.of_unplaced hm').1] at hm
    obtain ⟨fallback', hfound, hsame⟩ := fallbackOf_same hrest hq
    exact ⟨fallback', varParts_named.2 (.inr ⟨ls', m', q, hls.same hls', hm, hhyphens, rfl, hfound⟩), hsame⟩

/-! ## Values -/

theorem curlyNext?_same {p q : Pieces} (h : curlyNext? p = .none) (hs : Same p q) : curlyNext? q = .none := by
  by_contra hsome
  obtain ⟨⟨inner, rest⟩, hsome⟩ := Option.ne_none_iff_exists'.1 hsome
  obtain ⟨cs, opener, closer, hcs, rfl⟩ := curlyNext?_eq_some.1 hsome
  obtain ⟨cs', p, rfl, hcs', hp⟩ := hs.symm.leaves
  obtain ⟨opener', inner', closer', rest', rfl, -⟩ := hp.block
  cases h.symm.trans (curlyNext?_eq_some.2 ⟨cs', opener', closer', hcs.same hcs', rfl⟩)

theorem nameNext?_same {p q : Pieces} (h : nameNext? p = .none) (hs : Same p q) : nameNext? q = .none := by
  by_contra hsome
  obtain ⟨⟨name, raw, rest⟩, hsome⟩ := Option.ne_none_iff_exists'.1 hsome
  obtain ⟨cs, m, hcs, hm, rfl, -⟩ := nameNext?_eq_some.1 hsome
  obtain ⟨cs', p, rfl, hcs', hp⟩ := hs.symm.leaves
  obtain ⟨m', p, rfl, hm', -⟩ := hp.leaf
  rw [(Lexeme.of_unplaced hm').1] at hm
  cases h.symm.trans (nameNext?_eq_some.2 ⟨cs', m', hcs.same hcs', hm, rfl, rfl⟩)

theorem IsText.same {l m : Lexeme} {p q : Pieces} (h : IsText sigil l p) (hl : l.unplaced = m.unplaced) (hs : Same p q) :
    IsText sigil m q := by
  have ht := (Lexeme.of_unplaced hl).1
  exact ⟨fun s => ht ▸ h.badUrl s, fun s => ht ▸ h.badString s, fun name => ht ▸ h.atKeyword name,
    fun hh => curlyNext?_same (h.hash (ht.trans hh)) hs, fun c hc => fun h1 h2 => nameNext?_same (h.sigil c (ht.trans hc) h1 h2) hs⟩

/-- What is read does not hang on the places. -/
theorem ReadsAs.same {p q : Pieces} {v : Value} (h : ReadsAs sigil p v) (hs : Same p q) : ReadsAs sigil q v := by
  induction h generalizing q with
  | done =>
    rw [Pieces.same_done hs]
    exact .done
  | text hl _ ih =>
    obtain ⟨m, q, rfl, hm, hq⟩ := hs.leaf
    rw [(Lexeme.of_unplaced hm).2]
    exact .text (hl.same hm hq) (ih hq)
  | interpolation hl hcs _ _ iha ihb =>
    obtain ⟨m, q, rfl, hm, hq⟩ := hs.leaf
    obtain ⟨cs', q, rfl, hcs', hq⟩ := hq.leaves
    obtain ⟨opener', inner', closer', rest', rfl, -, hi, hr, -⟩ := hq.block
    exact .interpolation ((Lexeme.of_unplaced hm).1 ▸ hl) (hcs.same hcs') (iha hi) (ihb hr)
  | atKeyword hl hsigil _ ih =>
    obtain ⟨m, q, rfl, hm, hq⟩ := hs.leaf
    rw [(Lexeme.of_unplaced hm).2]
    exact .atKeyword ((Lexeme.of_unplaced hm).1 ▸ hl) hsigil (ih hq)
  | sigil hl hc hsigil hcs hm _ ih =>
    obtain ⟨l', q, rfl, hl', hq⟩ := hs.leaf
    obtain ⟨cs', q, rfl, hcs', hq⟩ := hq.leaves
    obtain ⟨m', q, rfl, hm', hq⟩ := hq.leaf
    rw [(Lexeme.of_unplaced hl').2, (Lexeme.of_unplaced hm').2, text_of_unplaced hcs']
    exact .sigil ((Lexeme.of_unplaced hl').1 ▸ hl) hc hsigil (hcs.same hcs') ((Lexeme.of_unplaced hm').1 ▸ hm) (ih hq)
  | var ho hparts _ ih =>
    obtain ⟨opener', inner', closer', rest', rfl, ho', hi, hr, htext⟩ := hs.block
    obtain ⟨fallback', hparts', hsame⟩ := varParts_same hparts hi
    rw [Option.map_none, Option.map_eq_none_iff] at hsame
    rw [hsame] at hparts'
    rw [htext]
    exact .var ((Lexeme.of_unplaced ho').1 ▸ ho) hparts' (ih hr)
  | guarded ho hparts _ _ iha ih =>
    obtain ⟨opener', inner', closer', rest', rfl, ho', hi, hr, htext⟩ := hs.block
    obtain ⟨fallback', hparts', hsame⟩ := varParts_same hparts hi
    rw [Option.map_some, Option.map_eq_some_iff] at hsame
    obtain ⟨fallback', rfl, hsame⟩ := hsame
    rw [htext]
    exact .guarded ((Lexeme.of_unplaced ho').1 ▸ ho) hparts' (iha hsame.symm) (ih hr)
  | block ho _ _ iha ih =>
    obtain ⟨opener', inner', closer', rest', rfl, ho', hi, hr, -⟩ := hs.block
    rw [(Lexeme.of_unplaced ho').2]
    exact .block ((Lexeme.of_unplaced ho').1 ▸ ho) (iha hi) (ih hr)

/-- One value is read from pieces of one text. -/
theorem ReadsAs.unique {p q : Pieces} {v w : Value} (hp : ReadsAs sigil p v) (hq : ReadsAs sigil q w) (hs : Same p q) :
    v = w := by
  have h := readsAs_iff.2 (hp.same hs)
  rw [readsAs_iff.2 hq] at h
  exact (Except.ok.inj h).symm

end Value

end ThemeVars
