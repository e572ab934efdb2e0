/-
Reading and writing sheets. `step_text`: a lexeme goes either into the node
that it ends or into what is pending, and into one place there.
`print_parse`: a sheet that can be read is written as it was.
-/
import Mathlib
import ThemeVars.Error
import ThemeVars.Proofs.Outcome
import ThemeVars.Proofs.Sheet.Marking
import ThemeVars.Proofs.Token.Matching

namespace ThemeVars.Sheet

/-! ## The text of what is under way -/

/-- All that has been read of the node. -/
def Draft.text : Draft → List Char
  | .plain head gap => head ++ gap
  | .valued property link value gap => property ++ link ++ value ++ gap
  | .atRule name afterName params gap => '@' :: name ++ afterName ++ params ++ gap

/-- Before its parameters, all space of an at-rule is in its gap. -/
def Draft.Sound : Draft → Prop
  | .atRule _ afterName params _ => params = [] → afterName = []
  | _ => True

/-- All that has been read since the last node. -/
def Pending.text : Pending → List Char
  | .gap before => before
  | .draft before d _ => before ++ d.text

def Pending.Sound : Pending → Prop
  | .gap _ => True
  | .draft _ d _ => d.Sound

theorem Draft.text_addSpace (text : List Char) (d : Draft) : (d.addSpace text).text = d.text ++ text := by
  cases d <;> simp [Draft.addSpace, Draft.text]

theorem Draft.Sound.addSpace {d : Draft} (h : d.Sound) (text : List Char) : (d.addSpace text).Sound := by
  cases d with
  | plain => trivial
  | valued => trivial
  | atRule => exact h

theorem Draft.text_addWord {d : Draft} (h : d.Sound) (isColon : Bool) (text : List Char) :
    (d.addWord isColon text).text = d.text ++ text := by
  cases d with
  | plain head gap => cases isColon <;> simp [Draft.addWord, Draft.text]
  | valued property link value gap => cases value <;> simp [Draft.addWord, Draft.text]
  | atRule name afterName params gap =>
    cases params with
    | nil => simp [Draft.addWord, Draft.text, h rfl]
    | cons => simp [Draft.addWord, Draft.text]

theorem Draft.Sound.addWord {d : Draft} {text : List Char} (h : d.Sound) (ht : text ≠ []) (isColon : Bool) :
    (d.addWord isColon text).Sound := by
  cases d with
  | plain head gap => cases isColon <;> trivial
  | valued property link value gap => cases value <;> trivial
  | atRule name afterName params gap =>
    cases params with
    | nil => exact fun hnil => absurd hnil ht
    | cons => exact fun hnil => by simp at hnil

theorem Pending.opened_text {pending : Pending} (h : pending.Sound) :
    pending.text = pending.opened.1 ++ pending.opened.2.1.text ∧ pending.opened.2.1.Sound := by
  cases pending with
  | gap before => exact ⟨(List.append_nil _).symm, trivial⟩
  | draft before d sigil => exact ⟨rfl, h⟩

/-! ## The text of nodes -/

/-- The nodes as text. -/
def printed (nodes : List Node) : List Char := (Node.printAll nodes).toList

theorem printed_nil : printed [] = [] := rfl

theorem printed_cons (node : Node) (nodes : List Node) :
    printed (node :: nodes) = node.print.toList ++ printed nodes := by
  simp [printed, Node.printAll]

theorem printed_append (a b : List Node) : printed (a ++ b) = printed a ++ printed b := by
  induction a with
  | nil => rfl
  | cons node a ih => rw [List.cons_append, printed_cons, ih, printed_cons, List.append_assoc]

theorem Draft.print_finish (before : List Char) (semicolon : Bool) {d : Draft} (h : d.Sound) :
    (d.finish before semicolon).print.toList = before ++ d.text ++ (if semicolon then [';'] else []) := by
  cases d with
  | plain head gap => cases semicolon <;> simp [Draft.finish, Draft.text, Node.print]
  | valued property link value gap =>
    cases value <;> cases semicolon <;> simp [Draft.finish, Draft.text, Node.print]
  | atRule name afterName params gap =>
    cases params with
    | nil => cases semicolon <;> simp [Draft.finish, Draft.text, Node.print, h rfl]
    | cons => cases semicolon <;> simp [Draft.finish, Draft.text, Node.print]

theorem Draft.print_withBlock (before : List Char) (children : List Node) (after : List Char) {d : Draft}
    (h : d.Sound) : (d.withBlock before children after).print.toList =
      before ++ d.text ++ '\x7b' :: (printed children ++ after ++ ['\x7d']) := by
  cases d with
  | plain head gap => simp [Draft.withBlock, Draft.text, Node.print, printed]
  | valued property link value gap => simp [Draft.withBlock, Draft.text, Node.print, printed]
  | atRule name afterName params gap =>
    cases params with
    | nil => simp [Draft.withBlock, Draft.text, Node.print, printed, h rfl]
    | cons => simp [Draft.withBlock, Draft.text, Node.print, printed]

theorem print_lineComment {text : List Char} (before : List Char) (h : Spelled .lineComment text) :
    (Node.comment (.ofList (text.drop 2)) (.ofList before) true).print.toList = before ++ text := by
  obtain ⟨rest, rfl⟩ := h.lead
  simp [Node.print, Token.lead]

theorem print_comment {text : List Char} (before : List Char) (h : Spelled .comment text)
    (hc : isClosedComment text = true) :
    (Node.comment (.ofList (((text.drop 2).dropLast).dropLast)) (.ofList before) false).print.toList =
      before ++ text := by
  obtain ⟨rest, rfl⟩ := h.lead
  simp only [isClosedComment, Token.lead, Bool.and_eq_true, List.isSuffixOf_iff_suffix] at hc
  obtain ⟨hlen, hsuffix⟩ := hc
  have hrest : ['*', '/'] <:+ rest := by
    refine List.suffix_of_suffix_length_le hsuffix (List.suffix_append _ _) ?_
    simpa using hlen
  obtain ⟨mid, rfl⟩ := hrest
  have hmid : (mid ++ ['*', '/']).dropLast.dropLast = mid := by
    rw [List.append_cons, List.dropLast_concat, List.dropLast_concat]
  simp only [Node.print, Token.lead, List.cons_append, List.nil_append, List.drop_succ_cons, List.drop_zero, hmid]
  simp

/-! ## Reading loses no text -/

/-- A lexeme goes into the node that it ends and into what is pending then. -/
theorem step_text {dialect : Dialect} {rest : Pieces} {l : Lexeme} {pending pending' : Pending}
    {node : Option Node} (h : step dialect rest l pending = .ok (node, pending')) (hl : Spelled l.token l.text)
    (hp : pending.Sound) :
    pending'.Sound ∧ printed node.toList ++ pending'.text = pending.text ++ l.text := by
  obtain ⟨hopened, hsound⟩ := Pending.opened_text hp
  -- a word is added to the draft that is opened for it
  have word (hw : (.ok (.none, .draft pending.opened.1 (pending.opened.2.1.addWord (l.token == .colon) l.text)
      (isInterpolationSign l.token)) : Except SheetError (Option Node × Pending)) = .ok (node, pending')) :
      pending'.Sound ∧ printed node.toList ++ pending'.text = pending.text ++ l.text := by
    cases hw
    refine ⟨hsound.addWord hl.ne_nil _, ?_⟩
    rw [hopened, Pending.text, Draft.text_addWord hsound, List.append_assoc]
    rfl
  cases pending with
  | gap before =>
    simp only [step] at h
    split at h
    · cases h
      exact ⟨trivial, rfl⟩
    · rename_i ht
      cases h
      rw [ht] at hl
      refine ⟨trivial, ?_⟩
      simpa [printed_cons, printed_nil, Pending.text] using print_lineComment before hl
    · rename_i ht
      split at h
      · cases h
      · rename_i hf
        cases h
        rw [ht] at hl
        have hc : isClosedComment l.text = true := by simpa [lexemeFault?, ht] using hf
        refine ⟨trivial, ?_⟩
        simpa [printed_cons, printed_nil, Pending.text] using print_comment before hl hc
    · cases h
      exact ⟨trivial, rfl⟩
    · cases h
    · rename_i name ht
      split at h
      · split at h
        · cases h
        · exact word h
      · cases h
        rw [ht] at hl
        obtain ⟨cs, hcs⟩ := hl.lead
        refine ⟨fun _ => rfl, ?_⟩
        simp [← hcs, Token.lead, Pending.text, Draft.text, printed_nil]
    · split at h
      · cases h
      · exact word h
  | draft before d sigil =>
    simp only [step] at h
    split at h
    · cases h
      refine ⟨hp.addSpace _, ?_⟩
      simp [Pending.text, Draft.text_addSpace, printed_nil]
    · cases h
      refine ⟨hp.addSpace _, ?_⟩
      simp [Pending.text, Draft.text_addSpace, printed_nil]
    · rename_i ht
      cases h
      have hsemi : l.text = [';'] := hl.sign _ (by rw [ht]; rfl)
      refine ⟨trivial, ?_⟩
      simp [printed_cons, printed_nil, Pending.text, Draft.print_finish before true hp, hsemi]
    · cases h
    · split at h
      · cases h
      · exact word h

/-- Every lexeme in the sequence, at any depth, is spelled as lexemes are. -/
def AllSpelled (p : Pieces) : Prop := ∀ l ∈ p.lexemes, Spelled l.token l.text

theorem AllSpelled.leaf {l : Lexeme} {rest : Pieces} (h : AllSpelled (.leaf l rest)) :
    Spelled l.token l.text ∧ AllSpelled rest :=
  ⟨h l (by simp [Pieces.lexemes]), fun m hm => h m (by simp [Pieces.lexemes, hm])⟩

theorem AllSpelled.block {opener : Lexeme} {bracket : Bracket} {inner rest : Pieces} {closer : Option Lexeme}
    (h : AllSpelled (.block opener bracket inner closer rest)) :
    Spelled opener.token opener.text ∧ AllSpelled inner ∧
      (∀ l, closer = .some l → Spelled l.token l.text) ∧ AllSpelled rest := by
  refine ⟨h opener (by simp [Pieces.lexemes]), fun l hl => h l ?_, fun l hl => h l ?_, fun l hl => h l ?_⟩ <;>
    simp [Pieces.lexemes, hl]

/-- Only a brace opens a curly block. -/
theorem opens?_curly {t : Token} (h : t.opens? = .some .curly) : t = .opening .curly := by
  cases t <;> first | exact congrArg Token.opening (Option.some.inj h) | cases h

theorem nodesOf_text {dialect : Dialect} {p : Pieces} {pending : Pending} {nodes : List Node}
    {after : List Char} (h : nodesOf dialect pending p = .ok (nodes, after)) (hm : p.Matched) (hs : AllSpelled p)
    (hp : pending.Sound) : printed nodes ++ after = pending.text ++ p.text := by
  induction p generalizing pending nodes after with
  | done =>
    cases pending with
    | gap before =>
      cases h
      simp [Pending.text, printed_nil, Pieces.text, Pieces.lexemes]
    | draft before d sigil =>
      cases h
      simp [Pending.text, printed_cons, printed_nil, Pieces.text, Pieces.lexemes, Draft.print_finish before false hp]
  | leaf l rest ih =>
    simp only [nodesOf, bind_ok] at h
    obtain ⟨⟨node, pending'⟩, hstep, ⟨more, last⟩, hrest, hret⟩ := h
    cases hret
    obtain ⟨hsound, htext⟩ := step_text hstep hs.leaf.1 hp
    have htail := ih hrest hm.2 hs.leaf.2 hsound
    calc printed (node.toList ++ more) ++ last
        = printed node.toList ++ (printed more ++ last) := by rw [printed_append, List.append_assoc]
      _ = printed node.toList ++ (pending'.text ++ rest.text) := by rw [htail]
      _ = pending.text ++ l.text ++ rest.text := by rw [← List.append_assoc, htext]
      _ = pending.text ++ (Pieces.leaf l rest).text := by rw [Pieces.text_leaf, List.append_assoc]
  | block opener bracket inner closer rest ihi ihr =>
    obtain ⟨hopener, hinner, hcloser, hrest⟩ := hs.block
    obtain ⟨hopens, -, hmi, hcl, -, hmr⟩ := hm
    obtain ⟨hopened, hsound⟩ := Pending.opened_text hp
    rcases ho : pending.opened with ⟨before, d, sigil⟩
    rw [ho] at hopened hsound
    simp only [nodesOf, ho] at h
    split at h
    · rename_i hcurly
      simp only [Bool.and_eq_true, beq_iff_eq] at hcurly
      obtain ⟨rfl, -⟩ := hcurly
      simp only [bind_ok] at h
      obtain ⟨⟨children, after'⟩, hchildren, h⟩ := h
      cases closer with
      | none => cases h
      | some closer =>
        simp only [Option.isNone_some, Bool.false_eq_true, if_false, bind_ok] at h
        obtain ⟨⟨more, last⟩, hnodes, hret⟩ := h
        cases hret
        have hi := ihi hchildren hmi hinner trivial
        have hr := ihr hnodes hmr hrest trivial
        have hopen : opener.text = ['\x7b'] := hopener.sign _ (by rw [opens?_curly hopens]; rfl)
        have hclose : closer.text = ['\x7d'] := (hcloser closer rfl).sign _ (by rw [(hcl closer rfl).1]; rfl)
        simp only [Pending.text, List.nil_append] at hi hr
        rw [printed_cons, List.append_assoc, hr, Draft.print_withBlock before children after' hsound, hi, hopened,
          Pieces.text_block, Pieces.blockText, hopen]
        simp [hclose]
    · have hword : (Pieces.blockText opener inner closer) ≠ [] := by
        simp [Pieces.blockText, hopener.ne_nil]
      split at h
      · cases h
      · have hr := ihr h hmr hrest (hsound.addWord hword false)
        rw [hr, hopened, Pending.text, Draft.text_addWord hsound, Pieces.text_block]
        simp only [List.append_assoc]

/-- A sheet that can be read is written as it was. -/
theorem print_parse {dialect : Dialect} {file : Option Path} {text : String} {sheet : Sheet}
    (h : Sheet.parse dialect file text = .ok sheet) : sheet.print = text := by
  simp only [Sheet.parse, mapError_ok, Sheet.read, map_ok] at h
  obtain ⟨⟨nodes, after⟩, hnodes, rfl⟩ := h
  have hspelled : AllSpelled (.ofLexemes (Masking.sheetLexemes dialect text.toList)) := by
    intro l hl
    rw [Pieces.lexemes_ofLexemes] at hl
    exact Masking.spelled_sheetLexemes l hl
  have htext := nodesOf_text hnodes (Pieces.matched_ofLexemes _) hspelled trivial
  rw [Pieces.text, Pieces.lexemes_ofLexemes, Masking.text_sheetLexemes] at htext
  apply String.toList_injective
  rw [Sheet.print, String.toList_append, String.toList_ofList]
  exact htext

/-- A rule, a line comment, and a statement without its semicolon. -/
theorem print_parse_scss :
    Sheet.parse .scss .none "a { b : c}\n// d\n@e f" = .ok
        ⟨[.rule "a" [.declaration "b" "c" ⟨" ", " : ", ""⟩ false] ⟨"", " ", ""⟩, .comment " d" "\n" true,
          .statement "e" "f" "\n" " " "" false], "", .none⟩ ∧
      (Sheet.mk [.rule "a" [.declaration "b" "c" ⟨" ", " : ", ""⟩ false] ⟨"", " ", ""⟩, .comment " d" "\n" true,
        .statement "e" "f" "\n" " " "" false] "" .none).print = "a { b : c}\n// d\n@e f" := by
  have h : Sheet.parse .scss .none "a { b : c}\n// d\n@e f" = .ok
      ⟨[.rule "a" [.declaration "b" "c" ⟨" ", " : ", ""⟩ false] ⟨"", " ", ""⟩, .comment " d" "\n" true,
        .statement "e" "f" "\n" " " "" false], "", .none⟩ := by
    cbv
  exact ⟨h, print_parse h⟩

end ThemeVars.Sheet
