/-
What the renaming of animations copies. A value is a row of parts: tokens
outside of blocks, and blocks. `rename_parts`: the parts that name keyframes
get the new names and all others stay, if and only if each curly block is
followed by a part that stays; else the inside of the block is lost
(`rename_interpolation`).
-/
import ThemeVars.Proofs.Token.Enclosed
import ThemeVars.Proofs.Sheet.Printing
import ThemeVars.Proofs.Value.Sealing
import ThemeVars.Scope.Animation

namespace ThemeVars.Animation

/-! ## The parts of a value -/

/-- A token outside of blocks, or a block with all that is in it. -/
inductive Part where
  | token (l : Lexeme)
  | block (bracket : Bracket) (text : List Char)

/-- The parts of a sequence, in order. -/
def parts : Pieces → List Part
  | .done => []
  | .leaf l rest => .token l :: parts rest
  | .block opener bracket inner closer rest =>
    .block bracket (Pieces.blockText opener inner closer) :: parts rest

/-- The new name of the keyframes that a token names. -/
def newName? (renames : Renaming) : Token → Option String
  | .ident name => find? renames name
  | .string name => find? renames name
  | _ => .none

/-- What stands around a name in the text of its token: the quote, for a
string. -/
def quoteOf (token : Token) (text : List Char) : List Char :=
  match token with
  | .string _ => text.take 1
  | _ => []

namespace Part

def text : Part → List Char
  | .token l => l.text
  | .block _ text => text

def isCurly : Part → Bool
  | .token _ => false
  | .block bracket _ => bracket == .curly

/-- The new name of the keyframes that the part names. -/
def newName? (renames : Renaming) : Part → Option String
  | .token l => Animation.newName? renames l.token
  | .block _ _ => .none

/-- The part with the new name in the place of the old. -/
def renamed (renames : Renaming) : Part → List Char
  | .token l =>
    match Animation.newName? renames l.token with
    | .none => l.text
    | .some new => quoteOf l.token l.text ++ new.toList ++ quoteOf l.token l.text
  | .block _ text => text

end Part

/-- Each curly block is followed by a part that names no keyframes; `waiting`
says that a curly block stands before these parts. -/
def followed (renames : Renaming) : (waiting : Bool) → List Part → Bool
  | waiting, [] => !waiting
  | waiting, part :: rest =>
    (!waiting || (part.newName? renames).isNone) && followed renames part.isCurly rest

variable {renames : Renaming} {carried : List Char} {waiting : Bool} {p : Pieces}

theorem text_parts (p : Pieces) : (parts p).flatMap Part.text = p.text := by
  induction p with
  | done => rfl
  | leaf l rest ih => rw [parts, List.flatMap_cons, ih, Pieces.text_leaf, Part.text]
  | block opener bracket inner closer rest _ ih => rw [parts, List.flatMap_cons, ih, Pieces.text_block, Part.text]

theorem mem_lexemes_of_mem_parts {l : Lexeme} (h : .token l ∈ parts p) : l ∈ p.lexemes := by
  induction p with
  | done => cases h
  | leaf m rest ih =>
    rcases List.mem_cons.1 h with h | h
    · cases h
      exact List.mem_cons_self
    · exact List.mem_cons_of_mem _ (ih h)
  | block opener bracket inner closer rest _ ih =>
    rcases List.mem_cons.1 h with h | h
    · cases h
    · simp [Pieces.lexemes, ih h]

/-- A part that names no keyframes stays as it is. -/
theorem Part.renamed_of_none {part : Part} (h : part.newName? renames = .none) : part.renamed renames = part.text := by
  cases part with
  | token l =>
    have h : Animation.newName? renames l.token = .none := h
    simp only [renamed, h, text]
  | block => rfl

/-! ## What is written -/

theorem renamePieces_leaf (l : Lexeme) (rest : Pieces) :
    renamePieces renames carried (.leaf l rest) =
      (match newName? renames l.token with
        | .none => carried ++ l.text
        | .some new => quoteOf l.token (carried ++ l.text) ++ new.toList ++ quoteOf l.token (carried ++ l.text)) ++
        renamePieces renames [] rest := by
  simp only [renamePieces]
  congr 1
  cases l.token
  case ident name =>
    simp only [newName?]
    cases find? renames name <;> simp [quoteOf]
  case string name =>
    simp only [newName?]
    cases find? renames name <;> simp [quoteOf]
  all_goals rfl

/-- What a block that is closed leaves to be written with the next part, after
what is written at once. -/
theorem renamePieces_block {opener : Lexeme} {bracket : Bracket} {inner rest : Pieces} {closer : Lexeme}
    (hcloser : closer.text = bracket.closer.toList) :
    renamePieces renames carried (.block opener bracket inner (.some closer) rest) =
      if bracket == .curly then
        carried ++ opener.text ++ renamePieces renames (inner.text ++ closer.text) rest
      else carried ++ Pieces.blockText opener inner (.some closer) ++ renamePieces renames [] rest := by
  simp only [renamePieces, Pieces.blockText, Option.toList_some, List.flatMap_singleton, hcloser, List.append_assoc]

/-- A closed block, and that its closing lexeme is written as brackets are. -/
theorem exists_closer {opener : Lexeme} {bracket : Bracket} {inner rest : Pieces} {closer : Option Lexeme}
    (hm : (Pieces.block opener bracket inner closer rest).Matched)
    (hs : Sheet.AllSpelled (.block opener bracket inner closer rest))
    (hc : (Pieces.block opener bracket inner closer rest).Closed) :
    ∃ l, closer = .some l ∧ l.text = bracket.closer.toList := by
  obtain ⟨l, rfl⟩ := Option.ne_none_iff_exists'.1 hc.2.1
  have hl := hs.block.2.2.1 l rfl
  rw [(hm.2.2.2.1 l rfl).1] at hl
  exact ⟨l, rfl, hl.closing⟩

/-- The text with the new names in the place of the old, where each block is
closed by a bracket. -/
def renamedText (renames : Renaming) : Pieces → List Char
  | .done => []
  | .leaf l rest => (Part.token l).renamed renames ++ renamedText renames rest
  | .block opener bracket inner _ rest =>
    opener.text ++ inner.text ++ bracket.closer.toList ++ renamedText renames rest

/-- Where nothing is left open, the parts are this text. -/
theorem renamedText_of_closed (hm : p.Matched) (hs : Sheet.AllSpelled p) (hc : p.Closed) :
    renamedText renames p = (parts p).flatMap (·.renamed renames) := by
  induction p with
  | done => rfl
  | leaf l rest ih => rw [renamedText, ih hm.2 hs.leaf.2 hc, parts, List.flatMap_cons]
  | block opener bracket inner closer rest _ ih =>
    obtain ⟨l, rfl, hl⟩ := exists_closer hm hs hc
    rw [renamedText, ih hm.2.2.2.2.2 hs.block.2.2.2 hc.2.2, parts, List.flatMap_cons, Part.renamed, Pieces.blockText,
      Option.toList_some, List.flatMap_singleton, hl]

/-- With each curly block followed by a part that stays, all is written. -/
theorem renamePieces_of_followed (hm : p.Matched) (hs : Sheet.AllSpelled p)
    (h : followed renames waiting (parts p) = true) (hcarried : waiting = false → carried = []) :
    renamePieces renames carried p = carried ++ renamedText renames p := by
  induction p generalizing carried waiting with
  | done =>
    rw [parts, followed, Bool.not_eq_true'] at h
    rw [hcarried h]
    rfl
  | leaf l rest ih =>
    rw [parts, followed, Bool.and_eq_true, Bool.or_eq_true, Bool.not_eq_true', Option.isNone_iff_eq_none] at h
    rw [renamePieces_leaf, ih hm.2 hs.leaf.2 h.2 fun _ => rfl, renamedText, Part.renamed]
    cases hnew : newName? renames l.token with
    | none => simp
    | some new =>
      -- a name that is replaced has nothing to write but itself
      rw [hcarried (h.1.resolve_right fun hnone => by simp [Part.newName?, hnew] at hnone)]
      simp
  | block opener bracket inner closer rest _ ih =>
    rw [parts, followed, Bool.and_eq_true, Part.isCurly] at h
    obtain ⟨-, -, -, hcloser, hnone, hmrest⟩ := hm
    have hrest {carried : List Char} (hcarried : (bracket == .curly) = false → carried = []) :
        renamePieces renames carried rest = carried ++ renamedText renames rest :=
      ih hmrest hs.block.2.2.2 h.2 hcarried
    simp only [renamePieces, renamedText]
    split
    · rename_i hcurly
      cases closer with
      | none =>
        -- nothing would follow
        rw [hnone rfl, hcurly] at h
        cases h.2
      | some l =>
        have hl := hs.block.2.2.1 l rfl
        rw [(hcloser l rfl).1] at hl
        rw [hrest (fun h => by rw [hcurly] at h; cases h), Option.toList_some, List.flatMap_singleton, hl.closing]
        simp
    · rw [hrest fun _ => rfl]
      simp

/-- A quote is as long whatever is carried to it. -/
theorem length_quoteOf (token : Token) {text : List Char} (h : text ≠ []) (carried : List Char) :
    (quoteOf token (carried ++ text)).length = (quoteOf token text).length := by
  have hlength := List.length_pos_iff.2 h
  cases token
  case string name =>
    simp only [quoteOf, List.length_take, List.length_append]
    omega
  all_goals rfl

/-- What is written is no longer than all that there is, and as long only with
each curly block followed by a part that stays. -/
theorem length_renamePieces (hm : p.Matched) (hs : Sheet.AllSpelled p) (hc : p.Closed)
    (hcarried : waiting = true → carried ≠ []) :
    (renamePieces renames carried p).length ≤ carried.length + ((parts p).flatMap (·.renamed renames)).length ∧
      ((renamePieces renames carried p).length = carried.length + ((parts p).flatMap (·.renamed renames)).length →
        followed renames waiting (parts p) = true) := by
  induction p generalizing carried waiting with
  | done =>
    simp only [renamePieces, parts, followed, List.length_nil, List.flatMap_nil]
    refine ⟨by omega, fun h => ?_⟩
    rw [Bool.not_eq_true', ← Bool.not_eq_true]
    exact fun hw => hcarried hw (List.length_eq_zero_iff.1 (by omega))
  | leaf l rest ih =>
    obtain ⟨hle, heq⟩ := ih hm.2 hs.leaf.2 hc (show false = true → [] ≠ [] from fun h => (nomatch h))
    have hquote := length_quoteOf l.token hs.leaf.1.ne_nil carried
    rw [renamePieces_leaf, parts, List.flatMap_cons, Part.renamed, followed, Part.isCurly, Part.newName?]
    cases hnew : newName? renames l.token with
    | none =>
      simp only [List.length_append, List.length_nil, Option.isNone_none, Bool.or_true, Bool.true_and] at hle heq ⊢
      exact ⟨by omega, fun h => heq (by omega)⟩
    | some new =>
      simp only [List.length_append, List.length_nil, hquote] at hle heq ⊢
      refine ⟨by omega, fun h => ?_⟩
      have hwaiting : waiting = false := by
        rw [← Bool.not_eq_true]
        exact fun hw => hcarried hw (List.length_eq_zero_iff.1 (by omega))
      rw [hwaiting, heq (by omega)]
      rfl
  | block opener bracket inner closer rest _ ih =>
    obtain ⟨l, rfl, hl⟩ := exists_closer hm hs hc
    have hrest (carried : List Char) (hcarried : (bracket == .curly) = true → carried ≠ []) :=
      ih hm.2.2.2.2.2 hs.block.2.2.2 hc.2.2 hcarried
    rw [renamePieces_block hl, parts, List.flatMap_cons, Part.renamed, followed, Part.isCurly, Part.newName?]
    simp only [Option.isNone_none, Bool.or_true, Bool.true_and]
    split
    · have hne : l.text ≠ [] := (hs.block.2.2.1 l rfl).ne_nil
      obtain ⟨hle, heq⟩ := hrest (inner.text ++ l.text) fun _ => by simp [hne]
      simp only [Pieces.blockText, Option.toList_some, List.flatMap_singleton, List.length_append] at hle heq ⊢
      exact ⟨by omega, fun h => heq (by omega)⟩
    · rename_i hcurly
      obtain ⟨hle, heq⟩ := hrest [] fun h => absurd h hcurly
      simp only [List.length_append, List.length_nil] at hle heq ⊢
      exact ⟨by omega, fun h => heq (by omega)⟩

/-- Closed pieces are written with the new names in the place of the old, if and
only if each curly block is followed by a part that stays. -/
theorem renamePieces_iff (hm : p.Matched) (hs : Sheet.AllSpelled p) (hc : p.Closed) :
    renamePieces renames [] p = (parts p).flatMap (·.renamed renames) ↔ followed renames false (parts p) = true := by
  constructor
  · intro h
    refine (length_renamePieces hm hs hc (show false = true → [] ≠ [] from fun h => (nomatch h))).2 ?_
    rw [h]
    simp
  · intro h
    rw [renamePieces_of_followed hm hs h fun _ => rfl, renamedText_of_closed hm hs hc, List.nil_append]

/-- Where no part names keyframes, it is the block at the end that counts. -/
theorem followed_of_none {ps : List Part} (h : ∀ part ∈ ps, part.newName? renames = .none) :
    followed renames waiting ps = true ↔ (ps.getLast?.map Part.isCurly).getD waiting = false := by
  induction ps generalizing waiting with
  | nil => simp [followed]
  | cons part ps ih =>
    obtain ⟨hpart, hps⟩ := List.forall_mem_cons.1 h
    rw [followed, hpart, Option.isNone_none, Bool.or_true, Bool.true_and, ih hps, List.getLast?_cons]
    cases ps.getLast? <;> rfl

/-! ## Quotes -/

/-- The texts whose first character is taken for a quote. -/
def quoted (renames : Renaming) (carried : List Char) : Pieces → List (List Char)
  | .done => []
  | .leaf l rest =>
    let here :=
      match l.token with
      | .string name => if (find? renames name).isSome then [carried ++ l.text] else []
      | _ => []
    here ++ quoted renames [] rest
  | .block _ bracket inner closer rest =>
    quoted renames (if bracket == .curly then inner.text ++ closer.toList.flatMap (·.text) else []) rest

/-- With each curly block followed by a part that stays, these are the texts of
strings. -/
theorem string_of_quoted (h : followed renames waiting (parts p) = true) (hcarried : waiting = false → carried = [])
    {text : List Char} (ht : text ∈ quoted renames carried p) :
    ∃ l ∈ p.lexemes, text = l.text ∧ ∃ name, l.token = .string name := by
  induction p generalizing carried waiting with
  | done => cases ht
  | leaf l rest ih =>
    rw [parts, followed, Bool.and_eq_true, Bool.or_eq_true, Bool.not_eq_true', Option.isNone_iff_eq_none] at h
    rcases List.mem_append.1 ht with ht | ht
    · split at ht
      · rename_i name hl
        split at ht
        · rename_i hnew
          have hwaiting := h.1.resolve_right fun hnone => by
            have hnone : find? renames name = .none := by rwa [Part.newName?, hl] at hnone
            rw [hnone] at hnew
            cases hnew
          rw [hcarried hwaiting, List.nil_append, List.mem_singleton] at ht
          exact ⟨l, List.mem_cons_self, ht, name, hl⟩
        · cases ht
      · cases ht
    · obtain ⟨m, hm, hmt⟩ := ih h.2 (fun _ => rfl) ht
      exact ⟨m, List.mem_cons_of_mem _ hm, hmt⟩
  | block opener bracket inner closer rest _ ih =>
    rw [parts, followed, Bool.and_eq_true, Part.isCurly] at h
    obtain ⟨m, hm, hmt⟩ := ih h.2 (fun hcurly => by rw [hcurly]; rfl) ht
    exact ⟨m, by simp [Pieces.lexemes, hm], hmt⟩

/-! ## Values -/

/-- The parts of a value. -/
def valueParts (value : String) : List Part := parts (.ofText value.toList)

/-- A value in which every block is closed is written with the new names in the
place of the old, strings between their own quotes, if and only if each curly
block is followed by a part that names no keyframes. So a value that names none
is written as it was unless a curly block ends it. And then quotes are taken
from strings only. -/
theorem rename_parts (renames : Renaming) (value : String) (hclosed : (Pieces.ofText value.toList).Closed) :
    (valueParts value).flatMap Part.text = value.toList ∧
      (∀ l name, .token l ∈ valueParts value → l.token = .string name →
        ∃ q rest, l.text = q :: rest ∧ (q = '"' ∨ q = '\'')) ∧
      ((rename renames value).toList = (valueParts value).flatMap (·.renamed renames) ↔
        followed renames false (valueParts value) = true) ∧
      ((∀ part ∈ valueParts value, part.newName? renames = .none) →
        (rename renames value = value ↔ ∀ part, (valueParts value).getLast? = .some part → part.isCurly = false)) ∧
      (followed renames false (valueParts value) = true →
        ∀ text ∈ quoted renames [] (.ofText value.toList), ∃ q rest, text = q :: rest ∧ (q = '"' ∨ q = '\'')) := by
  have hreads : ∀ l ∈ (Pieces.ofText value.toList).lexemes, ∃ u, Reads l.text u l.token := by
    intro l hl
    rw [Pieces.ofText, Pieces.lexemes_ofLexemes] at hl
    exact (tiled_lexemes value.toList).reads hl
  have hquote {l : Lexeme} {name : String} (hl : l ∈ (Pieces.ofText value.toList).lexemes) (ht : l.token = .string name) :
      ∃ q rest, l.text = q :: rest ∧ (q = '"' ∨ q = '\'') := by
    obtain ⟨u, hu⟩ := hreads l hl
    rw [ht] at hu
    obtain ⟨q, rest, htext, hq⟩ := hu.string
    exact ⟨q, rest, htext, by simpa [isQuote] using hq⟩
  have hiff : (rename renames value).toList = (valueParts value).flatMap (·.renamed renames) ↔
      followed renames false (valueParts value) = true := by
    rw [rename, String.toList_ofList]
    exact renamePieces_iff (Pieces.matched_ofLexemes _) (fun l hl => (hreads l hl).choose_spec.spelled) hclosed
  have htext : (valueParts value).flatMap Part.text = value.toList := (text_parts _).trans (Pieces.text_ofText _)
  refine ⟨htext, fun l name hl => hquote (mem_lexemes_of_mem_parts hl), hiff, fun hnone => ?_, fun h text ht => ?_⟩
  · have hsame : (valueParts value).flatMap (·.renamed renames) = value.toList := by
      rw [← htext]
      exact List.flatMap_congr fun part hpart => Part.renamed_of_none (hnone part hpart)
    rw [hsame, String.toList_inj] at hiff
    refine hiff.trans ((followed_of_none hnone).trans ?_)
    cases (valueParts value).getLast? <;> simp
  · obtain ⟨l, hl, rfl, name, hname⟩ := string_of_quoted h (fun _ => rfl) ht
    exact hquote hl hname

/-- Names as an identifier and as a string, one in a block, and one after a space
that follows an interpolation. -/
def spinning : String := "spin 1s, 'fade' steps(2, spin) #\x7b$x\x7d spin"

theorem rename_parts_spinning :
    (valueParts spinning).flatMap Part.text = spinning.toList ∧
      (∀ l name, .token l ∈ valueParts spinning → l.token = .string name →
        ∃ q rest, l.text = q :: rest ∧ (q = '"' ∨ q = '\'')) ∧
      ((rename [("spin", "spin-dark"), ("fade", "fade-dark")] spinning).toList =
          (valueParts spinning).flatMap (·.renamed [("spin", "spin-dark"), ("fade", "fade-dark")]) ↔
        followed [("spin", "spin-dark"), ("fade", "fade-dark")] false (valueParts spinning) = true) ∧
      ((∀ part ∈ valueParts spinning, part.newName? [("spin", "spin-dark"), ("fade", "fade-dark")] = .none) →
        (rename [("spin", "spin-dark"), ("fade", "fade-dark")] spinning = spinning ↔
          ∀ part, (valueParts spinning).getLast? = .some part → part.isCurly = false)) ∧
      (followed [("spin", "spin-dark"), ("fade", "fade-dark")] false (valueParts spinning) = true →
        ∀ text ∈ quoted [("spin", "spin-dark"), ("fade", "fade-dark")] [] (.ofText spinning.toList),
          ∃ q rest, text = q :: rest ∧ (q = '"' ∨ q = '\'')) := by
  have hclosed : (Pieces.ofText spinning.toList).Closed := by decide +kernel
  exact rename_parts _ spinning hclosed

example : followed [("spin", "spin-dark"), ("fade", "fade-dark")] false (valueParts spinning) = true ∧
    rename [("spin", "spin-dark"), ("fade", "fade-dark")] spinning =
      "spin-dark 1s, 'fade-dark' steps(2, spin) #\x7b$x\x7d spin-dark" := by
  decide +kernel

/-- An interpolation at the end loses its inside, though the value names no
keyframes, and so does one before a name that is replaced. -/
theorem rename_interpolation :
    (Pieces.ofText "#\x7b$name\x7d".toList).Closed ∧
      (∀ part ∈ valueParts "#\x7b$name\x7d", part.newName? [("spin", "spin-dark")] = .none) ∧
      rename [("spin", "spin-dark")] "#\x7b$name\x7d" = "#\x7b" ∧
      (Pieces.ofText "#\x7b$n\x7dspin 1s".toList).Closed ∧
      rename [("spin", "spin-dark")] "#\x7b$n\x7dspin 1s" = "#\x7bspin-dark 1s" := by
  decide +kernel

end ThemeVars.Animation
