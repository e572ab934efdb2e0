/-
Pieces with others in the place of some of them. `Reshaped` says what is kept:
brackets match, every block is closed, what stands before is read as it was, and
begins and ends nothing new. There is one rule for each way in which a value is
written again.
-/
import ThemeVars.Proofs.Token.Inserting
import ThemeVars.Proofs.Value.Placing

namespace ThemeVars

namespace Pieces

/-! ## Front -/

/-- A token that is neither space nor a name, so that nothing before it goes on
with it. -/
structure Fresh (t : Token) : Prop where
  filler : t.isFiller = false
  ident : ∀ name, t ≠ .ident name

/-- The second pieces begin no interpolation, no name and no space that the
first do not begin. -/
inductive Begins : Pieces → Pieces → Prop
  | done {p} : Begins p .done
  | leaf {l rest rest'} : Begins rest rest' → Begins (.leaf l rest) (.leaf l rest')
  | block {opener opener' bracket inner inner' closer closer' rest rest'} :
    Begins (.block opener bracket inner closer rest) (.block opener' bracket inner' closer' rest')
  | freshLeaf {p l rest} : Fresh l.token → Begins p (.leaf l rest)
  | freshBlock {p opener bracket inner closer rest} : bracket ≠ .curly → Begins p (.block opener bracket inner closer rest)

theorem Begins.refl (p : Pieces) : Begins p p := by
  induction p with
  | done => exact .done
  | leaf l rest ih => exact .leaf ih
  | block => exact .block

theorem afterComments_leaf (l : Lexeme) (p : Pieces) :
    (leaf l p).afterComments = if l.token == .comment then p.afterComments else leaf l p := rfl

theorem curlyNext?_leaf (l : Lexeme) (p : Pieces) :
    Value.curlyNext? (leaf l p) = if l.token == .comment then Value.curlyNext? p else .none := by
  by_cases hl : (l.token == .comment) = true
  · simp only [Value.curlyNext?, afterComments_leaf, hl, if_true]
  · simp only [Value.curlyNext?, afterComments_leaf, hl, Bool.false_eq_true, if_false]

theorem nameNext?_comment {l : Lexeme} {p : Pieces} (hl : l.token = .comment) :
    Value.nameNext? (leaf l p) = .none ↔ Value.nameNext? p = .none := by
  unfold Value.nameNext?
  rw [afterComments_leaf, if_pos (by simp [hl])]
  split
  · split
    · simp
    · simp
  · simp

theorem nameNext?_leaf {l : Lexeme} {p : Pieces} (hl : l.token ≠ .comment) :
    Value.nameNext? (leaf l p) = .none ↔ ∀ name, l.token ≠ .ident name := by
  constructor
  · intro h name hname
    have hsome : Value.nameNext? (leaf l p) = .some (name, l.text, p) :=
      Value.nameNext?_eq_some.2 ⟨[], l, fun _ hm => (nomatch hm), hname, rfl, rfl⟩
    cases h.symm.trans hsome
  · intro h
    by_contra hsome
    obtain ⟨⟨name, raw, rest⟩, hsome⟩ := Option.ne_none_iff_exists'.1 hsome
    obtain ⟨cs, m, hcs, hm, hp, -⟩ := Value.nameNext?_eq_some.1 hsome
    cases cs with
    | nil =>
      cases hp
      exact h name hm
    | cons c cs =>
      cases hp
      exact hl (by simpa using hcs l List.mem_cons_self)

theorem Fresh.ne_comment {t : Token} (h : Fresh t) : t ≠ .comment := by
  rintro rfl
  cases h.filler

theorem Begins.curlyNext?_eq_none {p p' : Pieces} (h : Begins p p') (hp : Value.curlyNext? p = .none) :
    Value.curlyNext? p' = .none := by
  induction h with
  | done => rfl
  | @leaf l rest rest' _ ih =>
    rw [curlyNext?_leaf] at hp ⊢
    split
    · rename_i hl
      rw [if_pos hl] at hp
      exact ih hp
    · rfl
  | @block _ _ bracket =>
    cases bracket with
    | curly => cases hp
    | _ => rfl
  | freshLeaf hl => rw [curlyNext?_leaf, if_neg (by simpa using hl.ne_comment)]
  | @freshBlock _ _ bracket _ _ _ hb =>
    cases bracket with
    | curly => exact absurd rfl hb
    | _ => rfl

theorem Begins.nameNext?_eq_none {p p' : Pieces} (h : Begins p p') (hp : Value.nameNext? p = .none) :
    Value.nameNext? p' = .none := by
  induction h with
  | done => rfl
  | @leaf l rest rest' _ ih =>
    by_cases hl : l.token = .comment
    · rw [nameNext?_comment hl] at hp ⊢
      exact ih hp
    · rw [nameNext?_leaf hl] at hp ⊢
      exact hp
  | block => rfl
  | freshLeaf hl => exact (nameNext?_leaf hl.ne_comment).2 hl.ident
  | freshBlock => rfl

theorem Begins.afterFiller {p p' : Pieces} (h : Begins p p') (hp : p.afterFiller = p) : p'.afterFiller = p' := by
  cases h with
  | done => rfl
  | leaf =>
    rw [afterFiller_leaf] at hp ⊢
    exact hp
  | block => rfl
  | freshLeaf hl => exact afterFiller_leaf.2 hl.filler
  | freshBlock => rfl

/-! ## End -/

/-- The last word is the same, or a closing bracket. -/
def Ends (ls ls' : List Lexeme) : Prop :=
  lastWord ls' = lastWord ls ∨ ∃ l b, lastWord ls' = .some l ∧ l.token = .closing b

theorem Ends.append {a a' b b' : List Lexeme} (ha : Ends a a') (hb : Ends b b') : Ends (a ++ b) (a' ++ b') := by
  unfold Ends at *
  rw [lastWord_append, lastWord_append]
  rcases hb with hb | ⟨l, bracket, hb, hl⟩
  · rw [hb]
    cases lastWord b with
    | none => exact ha
    | some l => exact .inl rfl
  · exact .inr ⟨l, bracket, by rw [hb]; rfl, hl⟩

theorem ends_closing (ls front : List Lexeme) {l : Lexeme} {b : Bracket} (hl : l.token = .closing b) :
    Ends ls (front ++ [l]) := by
  refine .inr ⟨l, b, ?_, hl⟩
  rw [lastWord_append]
  simp [lastWord, hl]

/-! ## Sequences -/

theorem lexemes_append (p q : Pieces) : (p.append q).lexemes = p.lexemes ++ q.lexemes := by
  induction p with
  | done => rfl
  | leaf l rest ih => simp [append, lexemes, ih]
  | block opener bracket inner closer rest _ ih => simp [append, lexemes, ih]

theorem leaves_eq_append (ls : List Lexeme) (p : Pieces) : leaves ls p = (leaves ls .done).append p := by
  induction ls with
  | nil => rfl
  | cons l ls ih => exact congrArg (leaf l) ih

theorem matched_append {p q : Pieces} (hp : p.Matched) (hc : p.Closed) (hq : q.Matched) : (p.append q).Matched := by
  induction p with
  | done => exact hq
  | leaf l rest ih => exact ⟨hp.1, ih hp.2 hc⟩
  | block opener bracket inner closer rest _ ih =>
    obtain ⟨ho, hl, hi, hcl, -, hr⟩ := hp
    exact ⟨ho, hl, hi, hcl, fun hn => absurd hn hc.2.1, ih hr hc.2.2⟩

theorem closed_append {p q : Pieces} (hp : p.Closed) (hq : q.Closed) : (p.append q).Closed := by
  induction p with
  | done => exact hq
  | leaf l rest ih => exact ih hp
  | block opener bracket inner closer rest _ ih => exact ⟨hp.1, hp.2.1, ih hp.2.2⟩

section

variable {ls : List Lexeme} {p : Pieces}

theorem Matched.of_leaves (h : (leaves ls p).Matched) : p.Matched := by
  induction ls with
  | nil => exact h
  | cons l ls ih => exact ih h.2

theorem Closed.of_leaves (h : (leaves ls p).Closed) : p.Closed := by
  induction ls with
  | nil => exact h
  | cons l ls ih => exact ih h

theorem Lacks.of_leaves {bracket : Bracket} (h : (leaves ls p).Lacks bracket) : p.Lacks bracket := by
  induction ls with
  | nil => exact h
  | cons l ls ih => exact ih h.2

theorem Matched.leaves (hl : ∀ l ∈ ls, l.token.opens? = .none) (h : p.Matched) : (leaves ls p).Matched := by
  induction ls with
  | nil => exact h
  | cons l ls ih => exact ⟨hl l List.mem_cons_self, ih fun m hm => hl m (List.mem_cons_of_mem l hm)⟩

theorem Closed.leaves (ls : List Lexeme) (h : p.Closed) : (leaves ls p).Closed := by
  induction ls with
  | nil => exact h
  | cons l ls ih => exact ih

theorem Lacks.leaves {bracket : Bracket} (hl : ∀ l ∈ ls, l.token.isClosing bracket = false) (h : p.Lacks bracket) :
    (leaves ls p).Lacks bracket := by
  induction ls with
  | nil => exact h
  | cons l ls ih => exact ⟨hl l List.mem_cons_self, ih fun m hm => hl m (List.mem_cons_of_mem l hm)⟩

end

/-! ## Space at the end -/

def isDone : Pieces → Bool
  | .done => true
  | _ => false

/-- The sequence without the space at its end. -/
def cutSpace : Pieces → Pieces
  | .done => .done
  | .leaf l rest => if l.token == .space && rest.cutSpace.isDone then .done else .leaf l rest.cutSpace
  | .block opener bracket inner closer rest => .block opener bracket inner closer rest.cutSpace

theorem eq_done_of_isDone {p : Pieces} (h : p.isDone = true) : p = .done := by
  cases p with
  | done => rfl
  | leaf => cases h
  | block => cases h

theorem cutSpace_leaf {l : Lexeme} (hl : l.token ≠ .space) (p : Pieces) : (leaf l p).cutSpace = leaf l p.cutSpace := by
  simp [cutSpace, hl]

theorem cutSpace_leaves (ls : List Lexeme) {p : Pieces} (hp : p.cutSpace.isDone = false) :
    (leaves ls p).cutSpace = leaves ls p.cutSpace := by
  induction ls with
  | nil => rfl
  | cons l ls ih =>
    have hnone : (leaves ls p.cutSpace).isDone = false := by
      cases ls with
      | nil => exact hp
      | cons => rfl
    rw [leaves_cons, cutSpace, ih, hnone, Bool.and_false, if_neg Bool.false_ne_true]
    rfl

theorem begins_cutSpace (p : Pieces) : Begins p p.cutSpace := by
  induction p with
  | done => exact .done
  | leaf l rest ih =>
    rw [cutSpace]
    split
    · exact .done
    · exact .leaf ih
  | block => exact .block

theorem matched_cutSpace {p : Pieces} (h : p.Matched) : p.cutSpace.Matched := by
  induction p with
  | done => trivial
  | leaf l rest ih =>
    rw [cutSpace]
    split
    · trivial
    · exact ⟨h.1, ih h.2⟩
  | block opener bracket inner closer rest _ ih =>
    obtain ⟨ho, hl, hi, hc, hn, hr⟩ := h
    refine ⟨ho, hl, hi, hc, fun hnone => ?_, ih hr⟩
    rw [hn hnone]
    rfl

theorem closed_cutSpace {p : Pieces} (h : p.Closed) : p.cutSpace.Closed := by
  induction p with
  | done => trivial
  | leaf l rest ih =>
    rw [cutSpace]
    split
    · trivial
    · exact ih h
  | block opener bracket inner closer rest _ ih => exact ⟨h.1, h.2.1, ih h.2.2⟩

theorem lacks_cutSpace {bracket : Bracket} {p : Pieces} (h : p.Lacks bracket) : p.cutSpace.Lacks bracket := by
  induction p with
  | done => trivial
  | leaf l rest ih =>
    rw [cutSpace]
    split
    · trivial
    · exact ⟨h.1, ih h.2⟩
  | block opener kind inner closer rest _ ih => exact ih h

/-- What is cut off is space, up to the last word. -/
theorem lexemes_cutSpace {p : Pieces} (hm : p.Matched) (hc : p.Closed) :
    ∃ spaces, p.lexemes = p.cutSpace.lexemes ++ spaces ∧ (∀ s ∈ spaces, s.token = .space) ∧
      p.cutSpace.lexemes.getLast? = lastWord p.lexemes := by
  induction p with
  | done => exact ⟨[], rfl, by simp, rfl⟩
  | leaf l rest ih =>
    obtain ⟨spaces, hrest, hs, hlast⟩ := ih hm.2 hc
    rw [cutSpace]
    by_cases hcut : l.token = .space ∧ rest.cutSpace.isDone = true
    · rw [if_pos (by simp [hcut])]
      rw [eq_done_of_isDone hcut.2] at hrest hlast
      refine ⟨l :: spaces, congrArg (l :: ·) hrest, List.forall_mem_cons.2 ⟨hcut.1, hs⟩, ?_⟩
      change _ = lastWord (l :: rest.lexemes)
      rw [lastWord, ← hlast, if_pos (by simp [hcut.1])]
      rfl
    · rw [if_neg (by simpa using hcut)]
      refine ⟨spaces, by rw [lexemes, hrest]; rfl, hs, ?_⟩
      rw [lexemes, lexemes, lastWord, ← hlast, List.getLast?_cons]
      cases hfront : rest.cutSpace.lexemes.getLast? with
      | some m => rfl
      | none =>
        rw [List.getLast?_eq_none_iff] at hfront
        have hdone : rest.cutSpace.isDone = true := by
          revert hfront
          cases rest.cutSpace with
          | done => exact fun _ => rfl
          | leaf =>
            intro h
            cases h
          | block =>
            intro h
            cases h
        have hl : l.token ≠ .space := fun hl => hcut ⟨hl, hdone⟩
        simp [hl]
  | block opener bracket inner closer rest _ ih =>
    obtain ⟨-, -, -, hclosing, -, hr⟩ := hm
    obtain ⟨spaces, hrest, hs, hlast⟩ := ih hr hc.2.2
    obtain ⟨l, rfl⟩ := Option.ne_none_iff_exists'.1 hc.2.1
    obtain ⟨hl, -⟩ := hclosing l rfl
    refine ⟨spaces, by rw [cutSpace, lexemes, lexemes, hrest]; simp, hs, ?_⟩
    have hword : lastWord (opener :: inner.lexemes ++ [l]) = .some l := by
      rw [lastWord_append]
      simp [lastWord, hl]
    rw [cutSpace, lexemes, lexemes, Option.toList_some, List.getLast?_append, hlast, lastWord_append, hword,
      List.getLast?_append, List.getLast?_singleton]
    rfl

/-! ## Ways in which pieces are written again -/

section

variable (S : List Lexeme → Prop)

/-- Where the first pieces stood, the second may stand. -/
structure Reshaped (p p' : Pieces) : Prop where
  matched : p'.Matched
  closed : p'.Closed
  lacks : ∀ bracket, p.Lacks bracket → p'.Lacks bracket
  begins : Begins p p'
  ends : Ends p.lexemes p'.lexemes
  yields : YieldsTo S p.lexemes p'.lexemes

variable {S} {p p' rest rest' inner inner' : Pieces}

/-- What comes of pieces before others that stay is read before them. -/
theorem Reshaped.tiled {ms : List Lexeme} (h : Reshaped S p p') (hh : Held S (p.lexemes ++ ms)) :
    Tiled (p'.lexemes ++ ms) := (h.yields ms ms hh hh.tiled.of_append (.refl ms)).1

variable (hS : ∀ {l ls}, S (l :: ls) → S ls)

include hS

theorem Reshaped.refl (hm : p.Matched) (hc : p.Closed) : Reshaped S p p :=
  ⟨hm, hc, fun _ h => h, .refl p, .inl rfl, .refl hS p.lexemes⟩

theorem Reshaped.leaf {l : Lexeme} (hl : l.token.opens? = .none) (h : Reshaped S rest rest') :
    Reshaped S (.leaf l rest) (.leaf l rest') where
  matched := ⟨hl, h.matched⟩
  closed := h.closed
  lacks bracket hp := ⟨hp.1, h.lacks bracket hp.2⟩
  begins := .leaf h.begins
  ends := Ends.append (a := [l]) (.inl rfl) h.ends
  yields := h.yields.cons hS

theorem Reshaped.leaves {ls : List Lexeme} (hm : (leaves ls rest).Matched) (h : Reshaped S rest rest') :
    Reshaped S (leaves ls rest) (leaves ls rest') := by
  induction ls with
  | nil => exact h
  | cons l ls ih => exact (ih hm.2).leaf hS hm.1

theorem Reshaped.block {opener closer : Lexeme} {bracket : Bracket}
    (hm : (Pieces.block opener bracket inner (.some closer) rest).Matched) (hi : Reshaped S inner inner')
    (hr : Reshaped S rest rest') :
    Reshaped S (.block opener bracket inner (.some closer) rest) (.block opener bracket inner' (.some closer) rest') where
  matched := by
    obtain ⟨ho, hl, -, hc, -, -⟩ := hm
    refine ⟨ho, hi.lacks bracket hl, hi.matched, fun l hcl => ?_, fun hn => (nomatch hn), hr.matched⟩
    exact ⟨(hc l hcl).1, hi.closed⟩
  closed := ⟨hi.closed, Option.some_ne_none _, hr.closed⟩
  lacks b hp := hr.lacks b hp
  begins := .block
  ends := by
    have h := (Ends.append (a := [opener]) (.inl rfl) hi.ends).append (.append (a := [closer]) (.inl rfl) hr.ends)
    simpa [lexemes] using h
  yields := by
    have h := (hi.yields.append hS (hr.yields.cons hS (l := closer))).cons hS (l := opener)
    simpa [lexemes] using h

/-- An interpolation, without the comments before its block. -/
theorem Reshaped.interpolation {l opener closer : Lexeme} {cs : List Lexeme} (hl : l.token = .delim '#')
    (hm : (Pieces.leaf l (Pieces.leaves cs (.block opener .curly inner (.some closer) rest))).Matched)
    (hi : Reshaped S inner inner') (hr : Reshaped S rest rest') :
    Reshaped S (.leaf l (Pieces.leaves cs (.block opener .curly inner (.some closer) rest)))
      (.leaf l (.block opener .curly inner' (.some closer) rest')) := by
  have hblock := hm.2.of_leaves
  have h := Reshaped.block hS hblock hi hr
  have hopener : opener.token = .opening .curly := by
    have hopens := hblock.1
    cases ht : opener.token with
    | opening b =>
      rw [ht] at hopens
      rw [Option.some.inj hopens]
    | _ =>
      rw [ht] at hopens
      cases hopens
  have hlexemes : (Pieces.leaf l (Pieces.leaves cs (.block opener .curly inner (.some closer) rest))).lexemes =
      (l :: (cs ++ [opener])) ++ (inner.lexemes ++ closer :: rest.lexemes) := by
    simp [lexemes, lexemes_leaves]
  have hlexemes' : (Pieces.leaf l (.block opener .curly inner' (.some closer) rest')).lexemes =
      [l, opener] ++ (inner'.lexemes ++ closer :: rest'.lexemes) := by
    simp [lexemes]
  refine ⟨⟨hm.1, h.matched⟩, h.closed, fun b hp => ⟨hp.1, h.lacks b hp.2.of_leaves⟩, .freshLeaf ?_, ?_, ?_⟩
  · rw [hl]
    refine ⟨rfl, fun _ h => ?_⟩
    cases h
  · rw [hlexemes, hlexemes']
    refine Ends.append (.inl ?_) (hi.ends.append (.append (a := [closer]) (.inl rfl) hr.ends))
    rw [show l :: (cs ++ [opener]) = (l :: cs) ++ [opener] from rfl, lastWord_append, show [l, opener] = [l] ++ [opener] from rfl,
      lastWord_append]
    simp [lastWord, hopener]
  · rw [hlexemes, hlexemes']
    exact (yieldsTo_hash hl hopener cs).append hS (hi.yields.append hS (hr.yields.cons hS))

/-- Pieces that end with a closing bracket, in the place of others. -/
theorem Reshaped.put {front : List Lexeme} {q₀ q : Pieces} {l : Lexeme} {b : Bracket} (hm : q.Matched) (hc : q.Closed)
    (hlacks : ∀ bracket, q.Lacks bracket) (hbegins : ∀ p r, Begins p (q.append r)) (hq : q.lexemes = front ++ [l])
    (hl : l.token = .closing b) (hf : YieldsTo S q₀.lexemes q.lexemes) (h : Reshaped S rest rest') :
    Reshaped S (q₀.append rest) (q.append rest') where
  matched := matched_append hm hc h.matched
  closed := closed_append hc h.closed
  lacks bracket hp := lacks_append.2 ⟨hlacks bracket, h.lacks bracket (lacks_append.1 hp).2⟩
  begins := hbegins _ _
  ends := by
    rw [lexemes_append, lexemes_append, hq]
    exact (ends_closing q₀.lexemes front hl).append h.ends
  yields := by
    rw [lexemes_append, lexemes_append]
    exact hf.append hS h.yields

omit hS

/-- The pieces of a reference with a fallback, as it is written anew. -/
def var (name : List Char) (fallback : Pieces) (closer : Lexeme) (rest : Pieces) : Pieces :=
  .block ⟨.function "var", "var(".toList, 0⟩ .round
    (leaves [⟨.ident (String.ofList name), name, 0⟩, ⟨.comma, [','], 0⟩, ⟨.space, [' '], 0⟩] fallback) (.some closer) rest

theorem lexemes_var (name : List Char) (fallback : Pieces) (closer : Lexeme) (rest : Pieces) :
    (var name fallback closer rest).lexemes = varLexemes name fallback.lexemes closer ++ rest.lexemes := by
  simp [var, lexemes, varLexemes]

include hS

/-- A reference with a fallback, written anew around what the fallback has
become. -/
theorem Reshaped.var {opener closer : Lexeme} {x : String} {name : List Char} {front : List Lexeme}
    {fallback fallback' : Pieces} {bracket : Bracket} (hopener : opener.token = .function x) (hx : x.lowered = "var")
    (hname : FitsCustom name)
    (hm : (Pieces.block opener bracket (Pieces.leaves front fallback) (.some closer) rest).Matched)
    (hfiller : fallback.afterFiller = fallback) (hi : Reshaped S fallback fallback')
    (hlast : ∀ l, lastWord fallback'.lexemes = .some l → l.isFirm = true) (hr : Reshaped S rest rest') :
    Reshaped S (.block opener bracket (Pieces.leaves front fallback) (.some closer) rest)
      (Pieces.var name fallback'.cutSpace closer rest') := by
  obtain ⟨ho, hl, -, hc, -, -⟩ := hm
  rw [hopener] at ho
  obtain rfl : Bracket.round = bracket := Option.some.inj ho
  have hcloser := (hc closer rfl).1
  have hlexemes : (Pieces.block opener .round (Pieces.leaves front fallback) (.some closer) rest).lexemes =
      opener :: (front ++ fallback.lexemes ++ [closer]) ++ rest.lexemes := by
    simp [lexemes, lexemes_leaves]
  obtain ⟨spaces, hcut, hspaces, hword⟩ := lexemes_cutSpace hi.matched hi.closed
  have hyields : YieldsTo S fallback.lexemes (fallback'.cutSpace.lexemes ++ spaces) := hcut ▸ hi.yields
  -- the fallback begins with no space
  have hfirst : ∀ l, fallback'.cutSpace.lexemes.head? = .some l → l.token ≠ .space := by
    intro l hhead hspace
    have hfixed := (begins_cutSpace fallback').afterFiller (hi.begins.afterFiller hfiller)
    have hmatched := matched_cutSpace hi.matched
    generalize fallback'.cutSpace = q at hhead hfixed hmatched
    cases q with
    | done => cases hhead
    | leaf m q =>
      cases hhead
      rw [afterFiller_leaf, hspace] at hfixed
      cases hfixed
    | block m =>
      cases hhead
      have hopens := hmatched.1
      rw [hspace] at hopens
      cases hopens
  refine ⟨?_, ?_, fun b hp => hr.lacks b hp, .freshBlock (by decide), ?_, ?_⟩
  · have hlacks : fallback'.cutSpace.Lacks .round := lacks_cutSpace (hi.lacks _ hl.of_leaves)
    refine ⟨rfl, ⟨rfl, rfl, rfl, hlacks⟩, ⟨rfl, rfl, rfl, matched_cutSpace hi.matched⟩, fun l hcl => ?_,
      fun hn => absurd hn (Option.some_ne_none _), hr.matched⟩
    exact ⟨(hc l hcl).1, closed_cutSpace hi.closed⟩
  · exact ⟨closed_cutSpace hi.closed, Option.some_ne_none _, hr.closed⟩
  · rw [hlexemes, lexemes_var]
    exact (ends_closing _ (_ :: _ :: _ :: _ :: fallback'.cutSpace.lexemes) hcloser).append hr.ends
  · rw [hlexemes, lexemes_var]
    refine YieldsTo.append hS (yieldsTo_var hS hopener hx hname hcloser hyields hspaces hfirst fun l hl => ?_) hr.yields
    exact hlast l (hword ▸ hl)

end

end Pieces

end ThemeVars
