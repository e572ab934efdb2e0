/-
What line comments do to a sheet. `nodesOf_blank`: whether a sheet can be read
does not hang on what they say, and neither do its statements, where no
comment stands inside of one.
-/
import ThemeVars.Proofs.Outcome
import ThemeVars.Proofs.Sheet.Bare
import ThemeVars.Proofs.Token.Matching

namespace ThemeVars

/-! ## Without what the comments say -/

/-- The lexeme without its place; of a line comment only the token is left. -/
def Lexeme.blank (l : Lexeme) : Lexeme := ⟨l.token, if l.token == .lineComment then [] else l.text, 0⟩

@[simp] theorem Lexeme.blank_token (l : Lexeme) : l.blank.token = l.token := rfl

theorem Lexeme.blank_text {l : Lexeme} (h : l.token ≠ .lineComment) : l.blank.text = l.text := by
  simp [blank, h]

namespace Pieces

def blank : Pieces → Pieces
  | .done => .done
  | .leaf l rest => .leaf l.blank rest.blank
  | .block opener bracket inner closer rest =>
    .block opener.blank bracket inner.blank (closer.map Lexeme.blank) rest.blank

theorem blank_eq (p : Pieces) : p.blank = p.map Lexeme.blank := by
  induction p with
  | done => rfl
  | leaf l rest ih => rw [blank, map, ih]
  | block opener bracket inner closer rest ihi ih => rw [blank, map, ihi, ih]

theorem ofLexemes_blank (ls : List Lexeme) : ofLexemes (ls.map Lexeme.blank) = (ofLexemes ls).blank := by
  rw [blank_eq, ofLexemes_map Lexeme.blank_token]

theorem lexemes_blank (p : Pieces) : p.blank.lexemes = p.lexemes.map Lexeme.blank := by
  rw [blank_eq, lexemes_map]

theorem text_blank {p : Pieces} (h : ∀ l ∈ p.lexemes, l.token ≠ .lineComment) : p.blank.text = p.text := by
  rw [text, text, lexemes_blank, List.flatMap_map]
  exact List.flatMap_congr fun l hl => Lexeme.blank_text (h l hl)

theorem blockText_blank {opener : Lexeme} {inner : Pieces} {closer : Option Lexeme}
    (h : ∀ l ∈ opener :: inner.lexemes ++ closer.toList, l.token ≠ .lineComment) :
    blockText opener.blank inner.blank (closer.map Lexeme.blank) = blockText opener inner closer := by
  have hopener := Lexeme.blank_text (h opener (by simp))
  have hinner : inner.blank.text = inner.text := text_blank fun l hl => h l (by simp [hl])
  cases closer with
  | none => simp only [blockText, hopener, hinner, Option.map_none]
  | some closer =>
    have hcloser := Lexeme.blank_text (h closer (by simp))
    simp only [blockText, hopener, hinner, Option.map_some, Option.toList_some, List.flatMap_cons, hcloser]

theorem dropLeaves_blank (f : Token → Bool) (p : Pieces) : p.blank.dropLeaves f = (p.dropLeaves f).blank := by
  induction p with
  | done => rfl
  | leaf l rest ih =>
    simp only [blank, dropLeaves, Lexeme.blank_token, ih]
    split <;> rfl
  | block => rfl

end Pieces

namespace Sheet

theorem lexemeFault?_blank (l : Lexeme) : (lexemeFault? l.blank).isSome = (lexemeFault? l).isSome := by
  obtain ⟨token, text, start⟩ := l
  cases token
  case string | badString | comment =>
    simp only [lexemeFault?, Lexeme.blank]
    split <;> split <;> simp_all
  all_goals rfl

theorem firstFault?_blank (p : Pieces) : (firstFault? p.blank).isSome = (firstFault? p).isSome := by
  induction p with
  | done => rfl
  | leaf l rest ih => simp only [Pieces.blank, firstFault?, Option.isSome_or, lexemeFault?_blank, ih]
  | block opener bracket inner closer rest ihi ih => simp only [Pieces.blank, firstFault?, Option.isSome_or, ihi, ih]

theorem isVariableHead_blank (d : Dialect) (name : String) (rest : Pieces) :
    isVariableHead d name rest.blank = isVariableHead d name rest := by
  simp only [isVariableHead, Pieces.afterFiller, Pieces.dropLeaves_blank]
  cases rest.dropLeaves Token.isFiller <;> rfl

/-! ## Where the comments stand -/

/-- Where the reader of a sheet is: between statements or inside of one. Then
`sign` says that a curly block would be an interpolation, and `commented` that
a line comment has been read since the last word. -/
inductive Spot where
  | between
  | inside (sign commented : Bool)
deriving DecidableEq, Repr

namespace Spot

def sign : Spot → Bool
  | .between => false
  | .inside sign _ => sign

def commented : Spot → Bool
  | .between => false
  | .inside _ commented => commented

/-- Where the reader is after a token. -/
def next (spot : Spot) (t : Token) : Spot :=
  match spot, t with
  | .between, .space | .between, .lineComment | .between, .comment | _, .semicolon => .between
  | .inside _ commented, .space => .inside false commented
  | .inside _ _, .lineComment => .inside false true
  | _, t => .inside (isInterpolationSign t) false

/-- The token is a part of the statement's text, together with a comment
before it. -/
def takes (spot : Spot) (t : Token) : Bool :=
  !(t == .space || t == .lineComment || t == .semicolon) && spot.commented

end Spot

/-- No line comment stands inside a statement, that is, before another word of
it or in a block that is a part of its text. -/
def apart : Spot → Pieces → Bool
  | _, .done => true
  | spot, .leaf l rest => !spot.takes l.token && apart (spot.next l.token) rest
  | spot, .block opener bracket inner closer rest =>
    if bracket == .curly && !spot.sign then apart .between inner && apart .between rest
    else
      !spot.commented && (opener :: inner.lexemes ++ closer.toList).all (·.token != .lineComment) &&
        apart (.inside false false) rest

/-! ## What is under way -/

namespace Draft

/-- The draft without the space after its last word. -/
def bare : Draft → Draft
  | .plain head _ => .plain head []
  | .valued property link value _ => .valued property link value []
  | .atRule name afterName params _ => .atRule name afterName params []

theorem bare_addSpace (text : List Char) (d : Draft) : (d.addSpace text).bare = d.bare := by
  cases d <;> rfl

theorem finish_bare (before : List Char) (semicolon : Bool) (d : Draft) :
    (d.finish before semicolon).bare = (d.bare.finish [] false).bare := by
  cases d with
  | plain => rfl
  | valued property link value gap =>
    simp only [finish, bare]
    split <;> rfl
  | atRule name afterName params gap =>
    simp only [finish, bare]
    split <;> rfl

theorem withBlock_bare (before : List Char) (children : List Node) (after : List Char) (d : Draft) :
    (d.withBlock before children after).bare = (d.bare.withBlock [] (children.map Node.bare) []).bare := by
  have hchildren : Node.bareAll (children.map Node.bare) = Node.bareAll children := by
    rw [← Node.bareAll_eq, Node.bareAll_bareAll]
  cases d with
  | plain => simp only [withBlock, bare, Node.bare, hchildren]
  | valued => simp only [withBlock, bare, Node.bare, hchildren]
  | atRule name afterName params gap =>
    simp only [withBlock, bare]
    split <;> simp only [Node.bare, hchildren]

end Draft

/-- Two sheets that differ in their comments are at the same spot of them;
unless a comment was taken in before (`clean`), the statements that are under
way differ in the space after the last word at most, and only if a comment
stands there. -/
inductive Alike (clean : Prop) : Spot → Pending → Pending → Prop
  | between {before before' : List Char} : Alike clean .between (.gap before) (.gap before')
  | inside {before before' : List Char} {d d' : Draft} {sign commented : Bool} (hbare : clean → d.bare = d'.bare)
      (heq : clean → commented = false → d = d') :
      Alike clean (.inside sign commented) (.draft before d sign) (.draft before' d' sign)

/-- The nodes are the same, their space and comments aside. -/
def SameNodes (nodes nodes' : List Node) : Prop := nodes.map Node.bare = nodes'.map Node.bare

theorem SameNodes.append {a a' b b' : List Node} (ha : SameNodes a a') (hb : SameNodes b b') :
    SameNodes (a ++ b) (a' ++ b') := by
  simp only [SameNodes, List.map_append] at ha hb ⊢
  rw [ha, hb]

theorem SameNodes.finish {before before' : List Char} {semicolon semicolon' : Bool} {d d' : Draft} (h : d.bare = d'.bare) :
    SameNodes [d.finish before semicolon] [d'.finish before' semicolon'] := by
  rw [SameNodes, List.map_singleton, List.map_singleton, Draft.finish_bare, h, ← Draft.finish_bare]

theorem SameNodes.withBlock {before before' after after' : List Char} {children children' : List Node} {d d' : Draft}
    (h : d.bare = d'.bare) (hchildren : SameNodes children children') :
    SameNodes [d.withBlock before children after] [d'.withBlock before' children' after'] := by
  rw [SameNodes] at hchildren ⊢
  rw [List.map_singleton, List.map_singleton, Draft.withBlock_bare, h, hchildren, ← Draft.withBlock_bare]

theorem word_blank {R : Option Node × Pending → Option Node × Pending → Prop} {x y : Option Node × Pending} (l : Lexeme)
    (h : R x y) :
    Together R (match lexemeFault? l with | .some e => .error e | .none => .ok x)
      (match lexemeFault? l.blank with | .some e => .error e | .none => .ok y) := by
  have hfault := lexemeFault?_blank l
  cases hb : lexemeFault? l.blank <;> cases hl : lexemeFault? l <;> simp only [hb, hl] at hfault
  · exact .ok h
  · cases hfault
  · cases hfault
  · exact .error

theorem step_blank {dialect : Dialect} {rest : Pieces} {l : Lexeme} {clean : Prop} {spot : Spot} {p q : Pending}
    (h : Alike clean spot p q) :
    Together (fun x y => (clean → SameNodes x.1.toList y.1.toList) ∧
        Alike (clean ∧ spot.takes l.token = false) (spot.next l.token) x.2 y.2)
      (step dialect rest l p) (step dialect rest.blank l.blank q) := by
  obtain ⟨token, text, start⟩ := l
  cases h with
  | between =>
    cases token
    case space | semicolon | lineComment => exact .ok ⟨fun _ => rfl, .between⟩
    case comment => exact word_blank ⟨.comment, text, start⟩ ⟨fun _ => rfl, .between⟩
    case string value =>
      exact word_blank ⟨.string value, text, start⟩ ⟨fun _ => rfl, .inside (fun _ => rfl) fun _ _ => rfl⟩
    case badString value =>
      exact word_blank ⟨.badString value, text, start⟩ ⟨fun _ => rfl, .inside (fun _ => rfl) fun _ _ => rfl⟩
    case atKeyword name =>
      simp only [step, Lexeme.blank_token, isVariableHead_blank]
      split
      · exact .ok ⟨fun _ => rfl, .inside (fun _ => rfl) fun _ _ => rfl⟩
      · exact .ok ⟨fun _ => rfl, .inside (fun _ => rfl) fun _ _ => rfl⟩
    case closing bracket =>
      cases bracket
      case curly => exact .error
      all_goals exact .ok ⟨fun _ => rfl, .inside (fun _ => rfl) fun _ _ => rfl⟩
    all_goals exact .ok ⟨fun _ => rfl, .inside (fun _ => rfl) fun _ _ => rfl⟩
  | @inside before before' d d' sign commented hbare heq =>
    -- a word takes the comment before it in, and then the drafts may differ
    have hword (t : Token) (ht : Spot.takes (.inside sign commented) t = commented) (isColon next : Bool) :
        Alike (clean ∧ Spot.takes (.inside sign commented) t = false) (.inside next false)
          (.draft before (d.addWord isColon text) next) (.draft before' (d'.addWord isColon text) next) := by
      have hd (h : clean ∧ Spot.takes (.inside sign commented) t = false) : d = d' := heq h.1 (ht ▸ h.2)
      exact .inside (fun h => by rw [hd h]) fun h _ => by rw [hd h]
    cases token
    case space =>
      refine .ok ⟨fun _ => rfl, .inside (fun h => ?_) fun h hc => ?_⟩
      · rw [Draft.bare_addSpace, Draft.bare_addSpace, hbare h.1]
      · rw [heq h.1 hc]
        rfl
    case lineComment =>
      refine .ok ⟨fun _ => rfl, .inside (fun h => ?_) fun _ hc => nomatch hc⟩
      rw [Draft.bare_addSpace, Draft.bare_addSpace, hbare h.1]
    case semicolon =>
      exact .ok ⟨fun h => .finish (hbare h), .between⟩
    case closing bracket =>
      cases bracket
      case curly => exact .error
      all_goals exact .ok ⟨fun _ => rfl, hword _ (by rfl) _ _⟩
    case string value => exact word_blank ⟨.string value, text, start⟩ ⟨fun _ => rfl, hword _ (by rfl) _ _⟩
    case badString value => exact word_blank ⟨.badString value, text, start⟩ ⟨fun _ => rfl, hword _ (by rfl) _ _⟩
    case comment => exact word_blank ⟨.comment, text, start⟩ ⟨fun _ => rfl, hword _ (by rfl) _ _⟩
    all_goals exact .ok ⟨fun _ => rfl, hword _ (by rfl) _ _⟩

theorem Alike.opened {clean : Prop} {spot : Spot} {p q : Pending} (h : Alike clean spot p q) :
    p.opened.2.2 = spot.sign ∧ q.opened.2.2 = spot.sign ∧ (clean → p.opened.2.1.bare = q.opened.2.1.bare) ∧
      (clean → spot.commented = false → p.opened.2.1 = q.opened.2.1) := by
  cases h with
  | between => exact ⟨rfl, rfl, fun _ => rfl, fun _ _ => rfl⟩
  | inside hbare heq => exact ⟨rfl, rfl, hbare, heq⟩

/-- Whether pieces can be read as nodes does not hang on what their line
comments say, and neither do the nodes, where the comments stand apart. -/
theorem nodesOf_blank {dialect : Dialect} (p : Pieces) {clean : Prop} {spot : Spot} {pending pending' : Pending}
    (h : Alike clean spot pending pending') :
    Together (fun x y => clean → apart spot p = true → SameNodes x.1 y.1) (nodesOf dialect pending p)
      (nodesOf dialect pending' p.blank) := by
  induction p generalizing clean spot pending pending' with
  | done =>
    cases h with
    | between => exact .ok fun _ _ => rfl
    | inside hbare heq => exact .ok fun hclean _ => .finish (hbare hclean)
  | leaf l rest ih =>
    simp only [Pieces.blank, nodesOf]
    refine (step_blank h).bind fun x y hstep => (ih hstep.2).bind fun u v hrest => .ok ?_
    intro hclean hapart
    simp only [apart, Bool.and_eq_true, Bool.not_eq_true'] at hapart
    exact (hstep.1 hclean).append (hrest ⟨hclean, hapart.1⟩ hapart.2)
  | block opener bracket inner closer rest ihi ih =>
    obtain ⟨hp, hq, hbare, heq⟩ := h.opened
    simp only [Pieces.blank, nodesOf, apart, hp, hq]
    cases bracket == .curly && !spot.sign with
    | true =>
      refine (ihi (Alike.between : Alike clean _ _ _)).bind fun x y hinner => ?_
      cases closer with
      | none => exact .error
      | some closer =>
        refine (ih (Alike.between : Alike clean _ _ _)).bind fun u v hrest => .ok ?_
        intro hclean hapart
        simp only [if_true, Bool.and_eq_true] at hapart
        exact (SameNodes.withBlock (hbare hclean) (hinner hclean hapart.1)).append (hrest hclean hapart.2)
    | false =>
      have hfault := firstFault?_blank inner
      have hpending : Alike (clean ∧ spot.commented = false ∧
          ∀ l ∈ opener :: inner.lexemes ++ closer.toList, l.token ≠ .lineComment) (.inside false false)
          (.draft pending.opened.1 (pending.opened.2.1.addWord false (Pieces.blockText opener inner closer)) false)
          (.draft pending'.opened.1
            (pending'.opened.2.1.addWord false (Pieces.blockText opener.blank inner.blank (closer.map Lexeme.blank)))
            false) := by
        refine .inside (fun ⟨hc, hs, hl⟩ => ?_) fun ⟨hc, hs, hl⟩ _ => ?_
        · rw [heq hc hs, Pieces.blockText_blank hl]
        · rw [heq hc hs, Pieces.blockText_blank hl]
      cases hb : firstFault? inner.blank <;> cases hi : firstFault? inner <;> simp only [hb, hi] at hfault ⊢
      · refine (ih hpending).mono fun u v hrest hclean hapart => ?_
        simp only [Bool.false_eq_true, if_false, Bool.and_eq_true, Bool.not_eq_true', List.all_eq_true, bne_iff_ne]
          at hapart
        exact hrest ⟨hclean, hapart.1.1, hapart.1.2⟩ hapart.2
      · cases hfault
      · cases hfault
      · exact .error

theorem apart_blank (spot : Spot) (p : Pieces) : apart spot p.blank = apart spot p := by
  induction p generalizing spot with
  | done => rfl
  | leaf l rest ih => simp only [Pieces.blank, apart, Lexeme.blank_token, ih]
  | block opener bracket inner closer rest ihi ih =>
    have hcloser : (closer.map Lexeme.blank).toList = closer.toList.map Lexeme.blank := by cases closer <;> rfl
    have htokens : opener.blank :: inner.blank.lexemes ++ (closer.map Lexeme.blank).toList =
        (opener :: inner.lexemes ++ closer.toList).map Lexeme.blank := by
      simp only [Pieces.lexemes_blank, hcloser, List.map_append, List.map_cons]
    simp only [Pieces.blank, apart, ihi, ih, htokens, List.all_map, Function.comp_def, Lexeme.blank_token]

/-! ## Sheets -/

/-- The lexemes of a sheet in blocks. -/
def pieces (dialect : Dialect) (text : String) : Pieces := .ofLexemes (Masking.sheetLexemes dialect text.toList)

/-- The texts are the same, what their line comments say aside. -/
def CommentsAside (dialect : Dialect) (a b : String) : Prop :=
  (Masking.sheetLexemes dialect a.toList).map Lexeme.blank = (Masking.sheetLexemes dialect b.toList).map Lexeme.blank

instance (dialect : Dialect) (a b : String) : Decidable (CommentsAside dialect a b) :=
  inferInstanceAs (Decidable (_ = _))

theorem CommentsAside.pieces {dialect : Dialect} {a b : String} (h : CommentsAside dialect a b) :
    (pieces dialect a).blank = (pieces dialect b).blank := by
  rw [Sheet.pieces, Sheet.pieces, ← Pieces.ofLexemes_blank, ← Pieces.ofLexemes_blank, h]

/-- What line comments say makes no sheet unreadable, and it leaves the
statements as they are, where none stands inside of one. -/
theorem parse_commentsAside {dialect : Dialect} {a b : String} (file : Option Path) (h : CommentsAside dialect a b) :
    Together (fun x y => apart .between (pieces dialect a) = true → x.bare = y.bare)
      (parse dialect file a) (parse dialect file b) := by
  have hblank (text : String) : Together (fun x y => apart .between (pieces dialect text) = true → SameNodes x.1 y.1)
      (nodesOf dialect (.gap []) (pieces dialect text)) (nodesOf dialect (.gap []) (pieces dialect text).blank) :=
    (nodesOf_blank _ (Alike.between : Alike True _ _ _)).mono fun _ _ hxy => hxy trivial
  have hapart : apart .between (pieces dialect b) = apart .between (pieces dialect a) := by
    rw [← apart_blank, ← h.pieces, apart_blank]
  have hb := hblank b
  rw [← h.pieces, hapart] at hb
  have hnodes : Together (fun x y => apart .between (pieces dialect a) = true → SameNodes x.1 y.1)
      (nodesOf dialect (.gap []) (pieces dialect a)) (nodesOf dialect (.gap []) (pieces dialect b)) :=
    (hblank a).join hb fun _ _ _ hx hy ha => (hx ha).trans (hy ha).symm
  refine (hnodes.map fun x y hxy ha => ?_).mapError
  have hsame : x.1.map Node.bare = y.1.map Node.bare := hxy ha
  simp only [bare, hsame]

end Sheet

end ThemeVars
