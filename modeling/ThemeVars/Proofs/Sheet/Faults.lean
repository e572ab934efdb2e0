/-
Which sheets can be read. `parse_fails_iff`: reading fails exactly if a comment
or string is not closed, a rule's or at-rule's block is not, or a curly bracket
closes nothing; but a string that ends in an escaped quote passes as closed.
`Standing` says what is open between two tokens of a sheet.
-/
import ThemeVars.Proofs.Sheet.Comments
import ThemeVars.Proofs.Token.Matching
import ThemeVars.Proofs.Token.Reading

namespace ThemeVars

/-! ## Strings and comments that are not closed -/

/-- What stands between the first character of a string and the same character
at its end. -/
def quotedRun? : List Char → Option (List Char)
  | [] => .none
  | quote :: body => if body.getLast? = .some quote then .some body.dropLast else .none

namespace Lexeme

/-- The lexeme is closed, if it is a string or comment: by a quote like its
first that is not escaped, or by a closing mark apart from the opening one. -/
def isTerminated (l : Lexeme) : Bool :=
  match l.token with
  | .string _ => (quotedRun? l.text).any (EscapeState.plain.after · != .slash)
  | .badString _ => (quotedRun? l.text).any (EscapeState.plain.after · != .slash)
  | .comment => ['*', '/'].isSuffixOf (l.text.drop 2)
  | _ => true

/-- The lexeme is a string, and an escaped quote like its first is its end. -/
def endsEscaped (l : Lexeme) : Bool :=
  match l.token with
  | .string _ => (quotedRun? l.text).any (EscapeState.plain.after · == .slash)
  | .badString _ => (quotedRun? l.text).any (EscapeState.plain.after · == .slash)
  | _ => false

end Lexeme

/-- A run takes no character that it does not admit, unless an escape does. -/
theorem endsRun_of_spanEscaped {inString : Bool} {admits : Char → Bool} {st : EscapeState} {x y u : List Char} {c : Char}
    (h : spanEscaped inString admits st (x ++ c :: y ++ u) = (x ++ c :: y, u)) :
    endsRun inString admits (st.after x) c (y ++ u) = false := by
  induction x generalizing st with
  | nil => exact (spanEscaped_cons_inv h).1
  | cons d x ih => exact ih (spanEscaped_cons_inv h).2

theorem EscapeState.eq_slash_of_quote {st : EscapeState} {q : Char} (hq : isQuote q = true)
    (h : st.isFresh q = false) : st = .slash := by
  have hquote : q = '"' ∨ q = '\'' := by simpa [isQuote] using hq
  cases st with
  | slash => rfl
  | plain => cases h
  | hex => rcases hquote with rfl | rfl <;> simp [isFresh, isHexDigit, Text.isSpace, Text.isNewline] at h
  | carriage => rcases hquote with rfl | rfl <;> simp [isFresh] at h

/-- As the lexer reads a string, it is closed exactly if what stops its run is
the quote that opens it. -/
theorem isTerminated_stringAt {q : Char} {run rest : List Char} (hq : isQuote q = true)
    (h : spanEscaped true (isStringChar q) .plain (run ++ rest) = (run, rest)) (start : Nat) :
    Lexeme.isTerminated
        ⟨(stringAt q (run ++ rest)).1, q :: (run ++ rest).take (stringAt q (run ++ rest)).2, start⟩ = true ↔
      rest.head? = .some q := by
  have hquote : q = '"' ∨ q = '\'' := by simpa [isQuote] using hq
  have hopen : (quotedRun? (q :: run)).any (EscapeState.plain.after · != .slash) = false := by
    rcases List.eq_nil_or_concat run with rfl | ⟨before, c, rfl⟩
    · rfl
    · rw [List.concat_eq_append] at h ⊢
      by_cases hc : c = q
      · subst hc
        have hends := endsRun_of_spanEscaped h
        have hfresh : (EscapeState.plain.after before).isFresh c = false := by
          rcases hquote with rfl | rfl <;> simpa [endsRun, isStringChar] using hends
        simp [quotedRun?, EscapeState.eq_slash_of_quote hq hfresh]
      · simp [quotedRun?, hc]
  rw [stringAt_append h]
  cases rest with
  | nil => simpa [Lexeme.isTerminated] using hopen
  | cons c cs =>
    by_cases hc : c = q
    · subst hc
      have hends := runEnds_of_spanEscaped h c cs rfl
      have hafter : EscapeState.plain.after run ≠ .slash := by
        intro hslash
        simp [endsRun, hslash, EscapeState.isFresh] at hends
      have htake : (run ++ c :: cs).take (run.length + 1) = run ++ [c] := by
        rw [List.take_append, List.take_of_length_le (Nat.le_succ _)]
        simp
      simpa [Lexeme.isTerminated, htake, quotedRun?] using hafter
    · simpa [Lexeme.isTerminated, hc] using hopen

/-- As the lexer reads a comment, it is closed exactly if a closing mark stands
somewhere after its opening mark. -/
theorem isSuffixOf_commentBody (s : List Char) :
    ['*', '/'].isSuffixOf (commentBody s) = true ↔ ['*', '/'] <:+: s := by
  rw [List.isSuffixOf_iff_suffix]
  induction s with
  | nil => simp [commentBody]
  | cons c cs ih =>
    simp only [commentBody]
    split
    · rename_i h
      rw [Bool.and_eq_true, beq_iff_eq, beq_iff_eq, List.head?_eq_some_iff] at h
      obtain ⟨rfl, u, rfl⟩ := h
      exact ⟨fun _ => ⟨[], u, rfl⟩, fun _ => List.suffix_rfl⟩
    · rename_i h
      have hbody : ['*', '/'] ≠ c :: commentBody cs := by
        intro heq
        injection heq with hc hcs
        subst hc
        refine h ?_
        cases cs with
        | nil => cases hcs
        | cons d ds =>
          simp only [commentBody] at hcs
          split at hcs
          · cases hcs
          · injection hcs with hd
            simp [← hd]
      have hfront : ¬ ['*', '/'] <+: c :: cs := by
        rintro ⟨u, hu⟩
        injection hu with hc hcs
        exact h (by simp [← hc, ← hcs])
      rw [List.suffix_cons_iff, List.infix_cons_iff, ih, or_iff_right hbody, or_iff_right hfront]

namespace Sheet

theorem isClosedString_eq (text : List Char) : isClosedString text = (quotedRun? text).isSome := by
  rcases text with _ | ⟨q, _ | ⟨c, cs⟩⟩
  · rfl
  · rfl
  · simp [isClosedString, quotedRun?, List.getLast?_cons_cons, apply_ite Option.isSome, Bool.beq_eq_decide_eq]

theorem isClosedComment_eq (text : List Char) : isClosedComment text = ['*', '/'].isSuffixOf (text.drop 2) := by
  rw [isClosedComment, Bool.eq_iff_iff, Bool.and_eq_true, decide_eq_true_eq, List.isSuffixOf_iff_suffix,
    List.isSuffixOf_iff_suffix]
  constructor
  · rintro ⟨hlen, body, rfl⟩
    refine ⟨body.drop 2, ?_⟩
    rw [List.drop_append_of_le_length]
    simp at hlen
    omega
  · intro h
    have hlen := h.length_le
    simp only [List.length_cons, List.length_nil, List.length_drop] at hlen
    exact ⟨by omega, h.trans (List.drop_suffix 2 text)⟩

theorem lexemeFault?_isSome (l : Lexeme) : (lexemeFault? l).isSome = (!l.isTerminated && !l.endsEscaped) := by
  have hstring (text : List Char) : (!isClosedString text) =
      (!(quotedRun? text).any (EscapeState.plain.after · != .slash) &&
        !(quotedRun? text).any (EscapeState.plain.after · == .slash)) := by
    rw [isClosedString_eq]
    cases quotedRun? text with
    | none => rfl
    | some run => cases h : EscapeState.plain.after run == .slash <;> simp [bne, h]
  obtain ⟨token, text, start⟩ := l
  cases token
  case string | badString =>
    simp only [lexemeFault?, Lexeme.isTerminated, Lexeme.endsEscaped, ← hstring]
    cases isClosedString text <;> rfl
  case comment =>
    simp only [lexemeFault?, Lexeme.isTerminated, Lexeme.endsEscaped, isClosedComment_eq]
    cases List.isSuffixOf ['*', '/'] (text.drop 2) <;> rfl
  all_goals rfl

theorem lexemeFault?_opening {l : Lexeme} {bracket : Bracket} (h : l.token.opens? = .some bracket) :
    lexemeFault? l = .none := by
  obtain ⟨token, text, start⟩ := l
  cases token <;> first | rfl | cases h

theorem lexemeFault?_closing {l : Lexeme} {bracket : Bracket} (h : l.token = .closing bracket) :
    lexemeFault? l = .none := by
  rw [lexemeFault?, h]

/-- A string or comment among the lexemes is not closed. -/
def anyFault (ls : List Lexeme) : Bool := ls.any fun l => (lexemeFault? l).isSome

/-- The lexemes of a block are at fault where those inside of it are. -/
theorem anyFault_block {opener : Lexeme} {bracket : Bracket} {inner : Pieces} {closer : Option Lexeme} {rest : Pieces}
    (hp : (Pieces.block opener bracket inner closer rest).Matched) :
    anyFault (Pieces.block opener bracket inner closer rest).lexemes =
      (anyFault inner.lexemes || anyFault rest.lexemes) := by
  obtain ⟨ho, -, -, hc, -, -⟩ := hp
  have hcloser : closer.toList.any (fun l => (lexemeFault? l).isSome) = false := by
    cases closer with
    | none => rfl
    | some closer => simp [lexemeFault?_closing (hc closer rfl).1]
  simp only [anyFault, Pieces.lexemes, List.any_append, List.any_cons, lexemeFault?_opening ho, hcloser,
    Option.isSome_none, Bool.false_or, Bool.or_false]

theorem firstFault?_isSome {p : Pieces} (hp : p.Matched) : (firstFault? p).isSome = anyFault p.lexemes := by
  induction p with
  | done => rfl
  | leaf l rest ih => rw [firstFault?, Option.isSome_or, ih hp.2, Pieces.lexemes, anyFault, anyFault, List.any_cons]
  | block opener bracket inner closer rest ihi ih =>
    rw [anyFault_block hp, firstFault?, Option.isSome_or, ihi hp.2.2.1, ih hp.2.2.2.2.2]

end Sheet

/-! ## What is open -/

/-- A block that is open: one of a rule or an at-rule, or any other. -/
inductive Frame where
  | nodes
  | inside (bracket : Bracket)
deriving DecidableEq, Repr

def Frame.bracket : Frame → Bracket
  | .nodes => .curly
  | .inside bracket => bracket

/-- The blocks that are open, the innermost first, and whether a sign came last
that makes a curly block an interpolation. -/
structure Standing where
  frames : List Frame := []
  sign : Bool := false
deriving DecidableEq, Repr

namespace Standing

/-- Nodes may begin here. -/
def atNodes (st : Standing) : Bool := st.frames.head?.all (· == .nodes)

/-- The block that the bracket opens: a curly one holds nodes, unless it is an
interpolation or a part of another block's text. -/
def frame (st : Standing) (bracket : Bracket) : Frame :=
  if st.atNodes && bracket == .curly && !st.sign then .nodes else .inside bracket

/-- The token closes the innermost block. -/
def closes (st : Standing) (t : Token) : Bool := st.frames.head?.any fun f => t.isClosing f.bracket

/-- What is open after a token. -/
def next (st : Standing) (t : Token) : Standing :=
  match t.opens? with
  | .some bracket => ⟨st.frame bracket :: st.frames, false⟩
  | .none => if st.closes t then ⟨st.frames.tail, false⟩ else ⟨st.frames, Sheet.isInterpolationSign t⟩

/-- What is open after some lexemes. -/
def after (st : Standing) (ls : List Lexeme) : Standing := ls.foldl (fun st l => st.next l.token) st

/-- A closing curly bracket stands where no block is open. -/
def Strays (st : Standing) : List Lexeme → Prop
  | [] => False
  | l :: ls => (l.token = .closing .curly ∧ st.frames = []) ∨ (st.next l.token).Strays ls

theorem strays_append (st : Standing) (a b : List Lexeme) :
    st.Strays (a ++ b) ↔ st.Strays a ∨ (st.after a).Strays b := by
  induction a generalizing st with
  | nil => exact (or_iff_right id).symm
  | cons l a ih => exact (or_congr_right (ih _)).trans or_assoc.symm

@[simp] theorem bracket_frame (st : Standing) (bracket : Bracket) : (st.frame bracket).bracket = bracket := by
  unfold frame
  split
  · rename_i h
    simp only [Bool.and_eq_true, beq_iff_eq] at h
    exact h.1.2.symm
  · rfl

theorem frame_eq_nodes {st : Standing} {bracket : Bracket} :
    st.frame bracket = .nodes ↔ st.atNodes = true ∧ bracket = .curly ∧ st.sign = false := by
  simp [frame, and_assoc]

theorem next_opening {st : Standing} {t : Token} {bracket : Bracket} (h : t.opens? = .some bracket) :
    st.next t = ⟨st.frame bracket :: st.frames, false⟩ := by
  rw [next, h]

/-- Nothing is closed by a token that closes no bracket of the innermost kind. -/
theorem next_leaf {st : Standing} {t : Token} (h : t.opens? = .none)
    (hl : ∀ f, st.frames.head? = .some f → t.isClosing f.bracket = false) :
    st.next t = ⟨st.frames, Sheet.isInterpolationSign t⟩ := by
  have hcloses : st.closes t = false := by
    rw [closes]
    cases hf : st.frames.head? with
    | none => rfl
    | some f => exact hl f hf
  rw [next, h, hcloses]
  rfl

theorem next_closing {st : Standing} {f : Frame} {frames : List Frame} (h : st.frames = f :: frames) :
    st.next (.closing f.bracket) = ⟨frames, false⟩ := by
  simp [next, Token.opens?, closes, Token.isClosing, h]

end Standing

namespace Pieces

/-- A block of nodes is never closed. `sign` says that a curly block at the
front would be an interpolation. -/
def Unclosed : Bool → Pieces → Prop
  | _, .done => False
  | _, .leaf l rest => rest.Unclosed (Sheet.isInterpolationSign l.token)
  | sign, .block _ bracket inner closer rest =>
    (bracket = .curly ∧ sign = false ∧ (closer = .none ∨ inner.Unclosed false)) ∨ rest.Unclosed false

/-- What is open after pieces whose brackets match: what was open before, and
the blocks that are never closed. -/
theorem after_lexemes {p : Pieces} (hp : p.Matched) (st : Standing)
    (hl : ∀ f, st.frames.head? = .some f → p.Lacks f.bracket) :
    ∃ opened, (st.after p.lexemes).frames = opened ++ st.frames ∧ (p.Closed → opened = []) ∧
      (.nodes ∈ opened ↔ st.atNodes = true ∧ p.Unclosed st.sign) := by
  induction p generalizing st with
  | done => exact ⟨[], rfl, fun _ => rfl, by simp [Unclosed]⟩
  | leaf l rest ih =>
    have hnext := Standing.next_leaf hp.1 fun f hf => (hl f hf).1
    obtain ⟨opened, hframes, hclosed, hnodes⟩ := ih hp.2 (st.next l.token) (by rw [hnext]; exact fun f hf => (hl f hf).2)
    rw [hnext] at hframes hnodes
    refine ⟨opened, ?_, hclosed, hnodes⟩
    rw [← hframes, ← hnext]
    rfl
  | block opener bracket inner closer rest ihi ih =>
    obtain ⟨ho, hlacks, hi, hc, hn, hr⟩ := hp
    have hopening : st.next opener.token = ⟨st.frame bracket :: st.frames, false⟩ := Standing.next_opening ho
    obtain ⟨within, hframes, hclosed, hnodes⟩ := ihi hi (st.next opener.token) (by
      rw [hopening]
      rintro f ⟨⟩
      rwa [Standing.bracket_frame])
    rw [hopening] at hframes hnodes
    have hat : Standing.atNodes ⟨st.frame bracket :: st.frames, false⟩ = true ↔
        st.atNodes = true ∧ bracket = .curly ∧ st.sign = false := by
      rw [← Standing.frame_eq_nodes]
      exact beq_iff_eq
    rw [hat] at hnodes
    cases closer with
    | none =>
      obtain rfl := hn rfl
      refine ⟨within ++ [st.frame bracket], ?_, fun h => absurd rfl h.2.1, ?_⟩
      · simpa [lexemes, Standing.after, hopening] using hframes
      · simp only [List.mem_append, List.mem_singleton, hnodes, eq_comm (a := Frame.nodes), Standing.frame_eq_nodes,
          Unclosed]
        grind
    | some closer =>
      obtain ⟨hcloser, hinner⟩ := hc closer rfl
      obtain rfl := hclosed hinner
      have hclosing := Standing.next_closing hframes
      rw [Standing.bracket_frame, ← hcloser] at hclosing
      obtain ⟨opened, hframes', hclosed', hnodes'⟩ := ih hr ⟨st.frames, false⟩ hl
      refine ⟨opened, ?_, fun h => hclosed' h.2.2, ?_⟩
      · rw [← hframes', ← hclosing, ← hopening]
        simp [lexemes, Standing.after]
      · refine hnodes'.trans (and_congr_right fun hst => (or_iff_right ?_).symm)
        rintro ⟨hb, hs, h | h⟩
        · cases h
        · exact List.not_mem_nil (hnodes.2 ⟨⟨hst, hb, hs⟩, h⟩)

/-- Where the brackets match, what is left over closes nothing. -/
theorem strays_lexemes {p : Pieces} (hp : p.Matched) (st : Standing)
    (hl : ∀ f, st.frames.head? = .some f → p.Lacks f.bracket) :
    st.Strays p.lexemes ↔ st.frames = [] ∧ ¬p.Lacks .curly := by
  induction p generalizing st with
  | done => simp [lexemes, Standing.Strays, Lacks]
  | leaf l rest ih =>
    have hnext := Standing.next_leaf hp.1 fun f hf => (hl f hf).1
    rw [lexemes, Standing.Strays, ih hp.2 _ (by rw [hnext]; exact fun f hf => (hl f hf).2), hnext, Lacks,
      and_comm (a := l.token = _), ← and_or_left, not_and_or, Token.isClosing, Bool.not_eq_false, beq_iff_eq]
  | block opener bracket inner closer rest ihi ih =>
    obtain ⟨ho, hlacks, hi, hc, hn, hr⟩ := hp
    have hopening : st.next opener.token = ⟨st.frame bracket :: st.frames, false⟩ := Standing.next_opening ho
    have hlacks' (f : Frame) (hf : (st.next opener.token).frames.head? = .some f) : inner.Lacks f.bracket := by
      rw [hopening] at hf
      cases hf
      rwa [Standing.bracket_frame]
    have hopener : ¬(opener.token = .closing .curly ∧ st.frames = []) := by
      rintro ⟨h, -⟩
      rw [h] at ho
      cases ho
    have hinner : ¬(st.next opener.token).Strays inner.lexemes := by
      rw [ihi hi _ hlacks', hopening]
      exact fun h => List.cons_ne_nil _ _ h.1
    rw [lexemes, List.cons_append, List.cons_append, Standing.Strays, or_iff_right hopener, List.append_assoc,
      Standing.strays_append, or_iff_right hinner]
    cases closer with
    | none =>
      rw [hn rfl]
      simp [lexemes, Standing.Strays, Lacks]
    | some closer =>
      obtain ⟨hcloser, hinner⟩ := hc closer rfl
      obtain ⟨within, hframes, hclosed, -⟩ := after_lexemes hi _ hlacks'
      rw [hclosed hinner, hopening, List.nil_append] at hframes
      have hclosing := Standing.next_closing hframes
      rw [Standing.bracket_frame, ← hcloser, ← hopening] at hclosing
      rw [Option.toList_some, List.singleton_append, Standing.Strays, hclosing, ih hr ⟨st.frames, false⟩ hl, or_iff_right, Lacks]
      rintro ⟨-, h⟩
      rw [hopening, hframes] at h
      cases h

/-- Pieces that cannot be read as nodes. -/
def Faulty : Bool → Pieces → Prop
  | _, .done => False
  | _, .leaf l rest =>
    ((Sheet.lexemeFault? l).isSome = true ∨ l.token = .closing .curly) ∨ rest.Faulty (Sheet.isInterpolationSign l.token)
  | sign, .block _ bracket inner closer rest =>
    if bracket = .curly ∧ sign = false then inner.Faulty false ∨ closer = .none ∨ rest.Faulty false
    else (Sheet.firstFault? inner).isSome = true ∨ rest.Faulty false

/-- What makes pieces unreadable: a lexeme at fault, a closing curly bracket
that is left over, or a block of nodes that is never closed. -/
theorem faulty_iff {p : Pieces} (hp : p.Matched) (sign : Bool) :
    p.Faulty sign ↔ Sheet.anyFault p.lexemes = true ∨ ¬p.Lacks .curly ∨ p.Unclosed sign := by
  induction p generalizing sign with
  | done => simp [Faulty, lexemes, Lacks, Unclosed, Sheet.anyFault]
  | leaf l rest ih =>
    have hfault : Sheet.anyFault (leaf l rest).lexemes = true ↔
        (Sheet.lexemeFault? l).isSome = true ∨ Sheet.anyFault rest.lexemes = true := by
      rw [lexemes, Sheet.anyFault, List.any_cons, Bool.or_eq_true, ← Sheet.anyFault]
    rw [Faulty, ih hp.2, hfault, Lacks, Unclosed, not_and_or, Token.isClosing, Bool.not_eq_false, beq_iff_eq]
    grind
  | block opener bracket inner closer rest ihi ih =>
    rw [Faulty, Sheet.anyFault_block hp, Bool.or_eq_true, Lacks, Unclosed, ← and_assoc]
    obtain ⟨-, hlacks, hi, -, -, hr⟩ := hp
    rw [ihi hi, ih hr, Sheet.firstFault?_isSome hi]
    by_cases h : bracket = .curly ∧ sign = false
    · rw [h.1] at hlacks
      rw [if_pos h, and_iff_right h, or_iff_right (not_not_intro hlacks)]
      grind
    · rw [if_neg h, or_iff_right (a := (bracket = .curly ∧ sign = false) ∧ _) fun hu => h hu.1]
      grind

end Pieces

namespace Sheet

/-- A lexeme outside blocks can be read unless it is at fault or a closing curly
bracket. -/
theorem step_ok (dialect : Dialect) (rest : Pieces) {l : Lexeme} (pending : Pending) (hfault : lexemeFault? l = .none)
    (hcloser : l.token ≠ .closing .curly) :
    ∃ node pending', step dialect rest l pending = .ok (node, pending') ∧
      pending'.opened.2.2 = isInterpolationSign l.token := by
  obtain ⟨token, text, start⟩ := l
  cases pending with
  | gap before =>
    cases token
    case string | badString | comment =>
      simp only [step, hfault]
      exact ⟨_, _, rfl, rfl⟩
    case closing bracket =>
      cases bracket
      case curly => exact absurd rfl hcloser
      all_goals exact ⟨_, _, rfl, rfl⟩
    case atKeyword name =>
      simp only [step]
      split
      · exact ⟨_, _, rfl, rfl⟩
      · exact ⟨_, _, rfl, rfl⟩
    all_goals exact ⟨_, _, rfl, rfl⟩
  | draft before d sign =>
    cases token
    case string | badString | comment =>
      simp only [step, hfault]
      exact ⟨_, _, rfl, rfl⟩
    case closing bracket =>
      cases bracket
      case curly => exact absurd rfl hcloser
      all_goals exact ⟨_, _, rfl, rfl⟩
    all_goals exact ⟨_, _, rfl, rfl⟩

theorem step_error (dialect : Dialect) (rest : Pieces) {l : Lexeme} (pending : Pending)
    (h : (lexemeFault? l).isSome = true ∨ l.token = .closing .curly) : ∃ e, step dialect rest l pending = .error e := by
  obtain ⟨token, text, start⟩ := l
  rcases h with h | rfl
  · obtain ⟨e, he⟩ := Option.isSome_iff_exists.1 h
    cases token
    case string | badString | comment => cases pending <;> exact ⟨e, by simp only [step, he]⟩
    all_goals cases he
  · cases pending <;> exact ⟨_, rfl⟩

/-- Pieces can be read as nodes unless they are faulty. -/
theorem nodesOf_fails_iff {dialect : Dialect} (p : Pieces) (pending : Pending) :
    (∃ e, nodesOf dialect pending p = .error e) ↔ p.Faulty pending.opened.2.2 := by
  induction p generalizing pending with
  | done => cases pending <;> exact ⟨fun ⟨_, h⟩ => (nomatch h), False.elim⟩
  | leaf l rest ih =>
    simp only [nodesOf, Pieces.Faulty]
    by_cases h : (lexemeFault? l).isSome = true ∨ l.token = .closing .curly
    · obtain ⟨e, he⟩ := step_error dialect rest pending h
      rw [he]
      exact ⟨fun _ => .inl h, fun _ => ⟨e, rfl⟩⟩
    · obtain ⟨hfault, hcloser⟩ := not_or.1 h
      obtain ⟨node, pending', hstep, hsign⟩ :=
        step_ok dialect rest pending (by simpa using hfault) hcloser
      rw [or_iff_right h, ← hsign, ← ih, hstep]
      exact bind_pure_error
  | block opener bracket inner closer rest ihi ih =>
    simp only [nodesOf, Pieces.Faulty]
    have hin := ihi (.gap [])
    by_cases h : bracket = .curly ∧ pending.opened.2.2 = false
    · rw [if_pos (by simpa using h), if_pos h]
      cases hx : nodesOf dialect (.gap []) inner with
      | error e => exact ⟨fun _ => .inl (hin.1 ⟨e, hx⟩), fun _ => ⟨e, rfl⟩⟩
      | ok children =>
        rw [or_iff_right fun hf => by obtain ⟨e, he⟩ := hin.2 hf; rw [hx] at he; cases he]
        cases closer with
        | none => exact ⟨fun _ => .inl rfl, fun _ => ⟨_, rfl⟩⟩
        | some closer =>
          rw [or_iff_right (Option.some_ne_none closer)]
          exact bind_pure_error.trans (ih (.gap []))
    · rw [if_neg (by simpa using h), if_neg h]
      cases hx : firstFault? inner with
      | none => exact (ih _).trans (or_iff_right Bool.false_ne_true).symm
      | some e => exact ⟨fun _ => .inl rfl, fun _ => ⟨e, rfl⟩⟩

/-- A sheet cannot be read exactly if one of its strings or comments is not
closed, where an escaped quote at the end passes for a closing one, a curly
bracket closes nothing, or a block of nodes is never closed. -/
theorem parse_fails_iff (dialect : Dialect) (file : Option Path) (text : String) :
    (∃ e, parse dialect file text = .error e) ↔
      (∃ l ∈ Masking.sheetLexemes dialect text.toList, l.isTerminated = false ∧ l.endsEscaped = false) ∨
        Standing.Strays {} (Masking.sheetLexemes dialect text.toList) ∨
        .nodes ∈ (Standing.after {} (Masking.sheetLexemes dialect text.toList)).frames := by
  have hmatched : (pieces dialect text).Matched := Pieces.matched_ofLexemes _
  have hlexemes : (pieces dialect text).lexemes = Masking.sheetLexemes dialect text.toList :=
    Pieces.lexemes_ofLexemes _
  have hfaults : anyFault (pieces dialect text).lexemes = true ↔
      ∃ l ∈ (pieces dialect text).lexemes, l.isTerminated = false ∧ l.endsEscaped = false := by
    simp [anyFault, lexemeFault?_isSome]
  have hat : Standing.atNodes {} = true := rfl
  have hstrays := Pieces.strays_lexemes hmatched {} fun _ h => nomatch h
  obtain ⟨opened, hframes, -, hnodes⟩ := Pieces.after_lexemes hmatched {} fun _ h => nomatch h
  rw [List.append_nil] at hframes
  rw [← hlexemes, hframes, hnodes, ← hfaults, hstrays, and_iff_right rfl,
    and_iff_right hat, parse, mapError_error, read, map_error]
  exact (nodesOf_fails_iff _ _).trans (Pieces.faulty_iff hmatched false)

/-- A string that nothing closes is read, as an escaped quote is its end. -/
theorem parse_escapedQuote :
    (∃ l ∈ Masking.sheetLexemes .css "a: \"x\\\"".toList, l.isTerminated = false) ∧
      ∃ sheet, parse .css .none "a: \"x\\\"" = .ok sheet :=
  ⟨⟨⟨.string "x\"", ['"', 'x', '\\', '"'], 3⟩, by decide +kernel, by decide +kernel⟩, _, rfl⟩

end Sheet

end ThemeVars
