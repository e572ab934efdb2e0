/-
Where the line comments of a sheet stand, in bytes. `bytes_maskFrom`: masking
puts spaces there and moves nothing. `exists_readsMasked`: what is read after a
comment by itself is read of the whole masked text too. From both,
`maskFrom_ranges`.
-/
import Mathlib.Data.List.Basic
import ThemeVars.Error
import ThemeVars.Proofs.Sheet.Marking
import ThemeVars.Proofs.Token.Blanking
import ThemeVars.Proofs.Value.Placing

namespace ThemeVars.Masking

open Text

/-! ## Bytes -/

/-- The bytes that write a text. -/
def bytes (s : List Char) : List UInt8 := s.flatMap String.utf8EncodeChar

@[simp] theorem utf8Length_nil : utf8Length [] = 0 := rfl

@[simp] theorem utf8Length_cons (c : Char) (s : List Char) : utf8Length (c :: s) = c.utf8Size + utf8Length s := rfl

@[simp] theorem utf8Length_append (s t : List Char) : utf8Length (s ++ t) = utf8Length s + utf8Length t := by
  induction s with
  | nil => simp
  | cons c s ih => simp [ih, Nat.add_assoc]

@[simp] theorem utf8Length_spaces (n : Nat) : utf8Length (List.replicate n ' ') = n := by
  induction n with
  | zero => rfl
  | succ n ih =>
    rw [List.replicate_succ, utf8Length_cons, ih]
    exact Nat.add_comm 1 n

theorem length_bytes (s : List Char) : (bytes s).length = utf8Length s := by
  induction s with
  | nil => rfl
  | cons c s ih =>
    rw [bytes, List.flatMap_cons, List.length_append, String.length_utf8EncodeChar]
    exact congrArg _ ih

theorem bytes_append (s t : List Char) : bytes (s ++ t) = bytes s ++ bytes t := List.flatMap_append

theorem bytes_spaces (n : Nat) : bytes (List.replicate n ' ') = List.replicate n 32 := by
  induction n with
  | zero => rfl
  | succ n ih => exact congrArg (32 :: ·) ih

/-- The bytes from `start` on, up to `stop`. -/
structure ByteRange where
  start : Nat
  stop : Nat
deriving DecidableEq, Repr

/-- Some range has the byte in it. -/
def within (rs : List ByteRange) (i : Nat) : Bool := rs.any fun r => r.start ≤ i && i < r.stop

/-- The bytes, of which `offset` stand before, with spaces in the ranges. -/
def blanked (offset : Nat) (rs : List ByteRange) (bs : List UInt8) : List UInt8 :=
  bs.mapIdx fun i b => if within rs (offset + i) then 32 else b

theorem length_blanked (k : Nat) (rs : List ByteRange) (bs : List UInt8) : (blanked k rs bs).length = bs.length :=
  List.length_mapIdx

theorem blanked_append (k : Nat) (rs : List ByteRange) (bs cs : List UInt8) :
    blanked k rs (bs ++ cs) = blanked k rs bs ++ blanked (k + bs.length) rs cs := by
  simp only [blanked, List.mapIdx_append, Nat.add_assoc, Nat.add_comm bs.length]

theorem blanked_outside {k : Nat} {rs : List ByteRange} {bs : List UInt8}
    (h : ∀ r ∈ rs, k + bs.length ≤ r.start) : blanked k rs bs = bs := by
  refine List.ext_getElem (length_blanked k rs bs) fun i hi _ => ?_
  rw [length_blanked] at hi
  have hnone : within rs (k + i) = false := by
    rw [within, List.any_eq_false]
    intro r hr
    have := h r hr
    simp only [Bool.and_eq_true, decide_eq_true_eq, not_and]
    omega
  simp [blanked, hnone]

theorem blanked_inside (k : Nat) (rs : List ByteRange) {bs : List UInt8} {n : Nat} (hn : bs.length = n) :
    blanked k (⟨k, k + n⟩ :: rs) bs = List.replicate n 32 := by
  subst hn
  refine List.mapIdx_eq_replicate_iff.2 fun i hi => if_pos ?_
  simp only [within, List.any_cons, Bool.or_eq_true, Bool.and_eq_true, decide_eq_true_eq]
  left
  omega

theorem blanked_behind (k stop : Nat) (rs : List ByteRange) (bs : List UInt8) :
    blanked stop (⟨k, stop⟩ :: rs) bs = blanked stop rs bs := by
  refine List.mapIdx_eq_mapIdx_iff.2 fun i hi => ?_
  have hr : decide (stop + i < stop) = false := by
    rw [decide_eq_false_iff_not]
    omega
  have hwithin : within (⟨k, stop⟩ :: rs) (stop + i) = within rs (stop + i) := by
    simp only [within, List.any_cons, hr, Bool.and_false, Bool.false_or]
  rw [hwithin]

/-! ## The ranges of the comments -/

/-- Where the comments stand, with `offset` bytes before the cells. -/
def ranges (offset : Nat) : List Cell → List ByteRange
  | [] => []
  | cell :: rest =>
    let next := offset + cell.shown.utf8Size
    match cell.mark with
    | .commentStart =>
      ⟨offset, next + utf8Length (shown (rest.takeWhile (·.mark == .commentRest)))⟩ :: ranges next rest
    | _ => ranges next rest

theorem shown_append (a b : List Cell) : shown (a ++ b) = shown a ++ shown b := List.map_append

theorem shown_map_codeCell (s : List Char) : shown (s.map codeCell) = s := by
  induction s with
  | nil => rfl
  | cons c s ih => exact congrArg (c :: ·) ih

theorem shown_commentCell (mark : Mark) (c : Char) : shown (commentCell mark c) = List.replicate c.utf8Size ' ' := by
  obtain ⟨n, hn⟩ := Nat.exists_eq_add_of_lt c.utf8Size_pos
  rw [shown, commentCell, hn, List.map_cons, List.map_replicate]
  exact (List.replicate_succ).symm

theorem shown_flatMap_commentCell (mark : Mark) (s : List Char) :
    shown (s.flatMap (commentCell mark)) = List.replicate (utf8Length s) ' ' := by
  induction s with
  | nil => rfl
  | cons c s ih => rw [List.flatMap_cons, shown_append, shown_commentCell, ih, utf8Length_cons, List.replicate_add]

/-- A comment shows as spaces, as many as it has bytes. -/
theorem shown_commentCells (c : Char) (rest : List Char) :
    shown (commentCells c rest) = List.replicate (utf8Length (c :: rest)) ' ' := by
  rw [commentCells, shown_append, shown_commentCell, shown_flatMap_commentCell, utf8Length_cons, List.replicate_add]

theorem ranges_code (k : Nat) (s : List Char) (cells : List Cell) :
    ranges k (s.map codeCell ++ cells) = ranges (k + utf8Length s) cells := by
  induction s generalizing k with
  | nil => rfl
  | cons c s ih =>
    rw [utf8Length_cons, ← Nat.add_assoc]
    exact ih (k + c.utf8Size)

theorem ranges_rest (k : Nat) {own : List Cell} (cells : List Cell) (h : ∀ cell ∈ own, cell.mark = .commentRest) :
    ranges k (own ++ cells) = ranges (k + utf8Length (shown own)) cells := by
  induction own generalizing k with
  | nil => rfl
  | cons cell own ih =>
    have hrest := ih (k + cell.shown.utf8Size) fun c hc => h c (by simp [hc])
    rw [Nat.add_assoc] at hrest
    simpa [ranges, h cell List.mem_cons_self, shown] using hrest

theorem mark_commentRest {s : List Char} : ∀ cell ∈ s.flatMap (commentCell .commentRest), cell.mark = .commentRest := by
  intro cell hcell
  obtain ⟨c, -, hc⟩ := List.mem_flatMap.1 hcell
  exact (commentCell_rest c cell hc).1

/-- A comment and the cells after it, which do not go on with it. -/
theorem ranges_comment (k : Nat) (rest : List Char) {cells : List Cell}
    (h : ∀ cell ∈ cells.head?, cell.mark ≠ .commentRest) :
    ranges k (commentCells '/' rest ++ cells) =
      ⟨k, k + utf8Length ('/' :: rest)⟩ :: ranges (k + utf8Length ('/' :: rest)) cells := by
  have htake : (rest.flatMap (commentCell .commentRest) ++ cells).takeWhile (·.mark == .commentRest) =
      rest.flatMap (commentCell .commentRest) := by
    rw [List.takeWhile_append_of_pos fun cell hc => by simpa using mark_commentRest cell hc]
    cases cells with
    | nil => simp
    | cons cell cells => simp [h cell rfl]
  have hcells : commentCells '/' rest ++ cells =
      ⟨' ', ['/'], .commentStart⟩ :: (rest.flatMap (commentCell .commentRest) ++ cells) := rfl
  rw [hcells, ranges]
  simp only [htake, ranges_rest _ _ mark_commentRest, shown_flatMap_commentCell, utf8Length_spaces, utf8Length_cons,
    ← Nat.add_assoc]
  rfl

/-- What is masked does not begin within a comment. -/
theorem mark_maskFrom (s : List Char) : ∀ cell ∈ (maskFrom s).head?, cell.mark ≠ .commentRest := by
  refine maskFrom_induction (P := fun _ cells => ∀ cell ∈ cells.head?, cell.mark ≠ .commentRest) ?_ ?_ s
  · rintro s - cell hcell
    cases s with
    | nil => cases hcell
    | cons c s =>
      cases hcell
      exact nofun
  · rintro before rest after - - cell hcell
    cases before with
    | nil =>
      cases hcell
      exact nofun
    | cons c before =>
      cases hcell
      exact nofun

/-- The ranges of a sheet: that of the first comment, and those behind it. -/
theorem ranges_first (k : Nat) (before rest after : List Char) :
    ranges k (before.map codeCell ++ (commentCells '/' ('/' :: rest) ++ maskFrom after)) =
      ⟨k + utf8Length before, k + utf8Length before + utf8Length ('/' :: '/' :: rest)⟩ ::
        ranges (k + utf8Length before + utf8Length ('/' :: '/' :: rest)) (maskFrom after) := by
  rw [ranges_code, ranges_comment _ _ (mark_maskFrom after)]

theorem ranges_map_codeCell (k : Nat) (s : List Char) : ranges k (s.map codeCell) = [] := by
  rw [← List.append_nil (s.map codeCell), ranges_code]
  rfl

/-! ## The masked text -/

/-- The ranges follow on each other, within the text. -/
theorem ranges_ordered (s : List Char) (k : Nat) :
    (ranges k (maskFrom s)).Pairwise (fun r r' => r.stop ≤ r'.start) ∧
      ∀ r ∈ ranges k (maskFrom s), k ≤ r.start ∧ r.start < r.stop ∧ r.stop ≤ k + utf8Length s := by
  refine maskFrom_induction (P := fun s cells => ∀ k, (ranges k cells).Pairwise (fun r r' => r.stop ≤ r'.start) ∧
    ∀ r ∈ ranges k cells, k ≤ r.start ∧ r.start < r.stop ∧ r.stop ≤ k + utf8Length s) ?_ ?_ s k
  · intro s _ k
    simp [ranges_map_codeCell]
  · intro before rest after _ ih k
    obtain ⟨hpairwise, hbounds⟩ := ih (k + utf8Length before + utf8Length ('/' :: '/' :: rest))
    have hpos := Char.utf8Size_pos '/'
    simp only [ranges_first, List.pairwise_cons, List.mem_cons, forall_eq_or_imp, utf8Length_append]
    refine ⟨⟨fun r hr => (hbounds r hr).1, hpairwise⟩, ⟨?_, ?_, ?_⟩, fun r hr => ?_⟩
    · omega
    · simp only [utf8Length_cons]
      omega
    · omega
    · have := hbounds r hr
      omega

/-- Masking puts a space for each byte of a comment, and changes no other byte. -/
theorem bytes_maskFrom (s : List Char) (k : Nat) :
    bytes (shown (maskFrom s)) = blanked k (ranges k (maskFrom s)) (bytes s) := by
  refine maskFrom_induction (P := fun s cells => ∀ k, bytes (shown cells) = blanked k (ranges k cells) (bytes s)) ?_ ?_ s k
  · intro s _ k
    rw [shown_map_codeCell, ranges_map_codeCell, blanked_outside (by simp)]
  · intro before rest after _ ih k
    generalize hn : utf8Length ('/' :: '/' :: rest) = n
    have hbehind := (ranges_ordered after (k + utf8Length before + n)).2
    rw [shown_append, shown_append, shown_map_codeCell, shown_commentCells, hn, ranges_first, hn]
    simp only [bytes_append, bytes_spaces, blanked_append, length_bytes, hn]
    rw [blanked_outside, blanked_inside _ _ ((length_bytes _).trans hn), blanked_behind, ← ih]
    · intro r hr
      rw [length_bytes]
      rcases List.mem_cons.1 hr with rfl | hr
      · exact Nat.le_refl _
      · have := (hbehind r hr).1
        omega

/-- The range is that of a line comment of the text. -/
def CommentAt (s : List Char) (r : ByteRange) : Prop :=
  ∃ before text after, s = before ++ (text ++ after) ∧ r = ⟨utf8Length before, utf8Length (before ++ text)⟩ ∧
    IsComment before text after

theorem IsComment.head_after {before text after : List Char} (h : IsComment before text after) :
    after.head? ≠ .some '/' := by
  rcases h.ends with rfl | h | rfl | ⟨after, rfl⟩
  · exact nofun
  · rw [h]
    decide
  · decide
  · exact nofun

/-- What is masked is a line comment, also with a text in front that does not end
in a colon before two slashes. -/
theorem commentAt_of_mem (s front : List Char) (hfront : s.head? = .some '/' → front.getLast? ≠ .some ':') :
    ∀ r ∈ ranges (utf8Length front) (maskFrom s), CommentAt (front ++ s) r := by
  refine maskFrom_induction (P := fun s cells => ∀ front, (s.head? = .some '/' → front.getLast? ≠ .some ':') →
    ∀ r ∈ ranges (utf8Length front) cells, CommentAt (front ++ s) r) ?_ ?_ s front hfront
  · rintro s - front - r hr
    rw [ranges_map_codeCell] at hr
    cases hr
  · rintro before rest after hfirst ih front hfront r hr
    rw [ranges_first] at hr
    rcases List.mem_cons.1 hr with rfl | hr
    · refine ⟨front ++ before, '/' :: '/' :: rest, after, by simp, by simp [Nat.add_assoc],
        { hfirst.toIsComment with colon := ?_ }⟩
      rw [List.getLast?_append]
      cases hlast : before.getLast? with
      | none =>
        obtain rfl := List.getLast?_eq_none_iff.1 hlast
        exact hfront rfl
      | some c =>
        have hcolon := hfirst.colon
        rw [hlast] at hcolon
        exact hcolon
    · have h := ih (front ++ (before ++ ('/' :: '/' :: rest))) (fun h => absurd h hfirst.head_after) r
        (by simpa only [utf8Length_append, Nat.add_assoc] using hr)
      simpa using h

/-! ## The lexemes of the masked text -/

theorem findComment_append {before : Option Char} {ls ms : List Lexeme} (h : findComment before (ls ++ ms) = .none) :
    findComment before ls = .none := by
  fun_induction findComment before ls with
  | case1 before l m rest hif => simp [findComment, hif] at h
  | case2 before l m rest hif ih =>
    rw [List.cons_append, List.cons_append, findComment, if_neg hif] at h
    exact ih h
  | case3 => rfl

/-- A colon before the lexemes is all that matters of what stands there. -/
theorem findComment_congr {b b' : Option Char} (h : b = .some ':' ↔ b' = .some ':') (ls : List Lexeme) :
    findComment b ls = findComment b' ls := by
  have hb : (b != .some ':') = (b' != .some ':') := by
    rw [Bool.eq_iff_iff, bne_iff_ne, bne_iff_ne]
    exact not_congr h
  match ls with
  | [] => rfl
  | [_] => rfl
  | l :: m :: rest => rw [findComment, findComment, hb]

/-- No comment begins with a token that is no slash, or before it. -/
theorem findComment_append_iff {before : Option Char} {ls ms : List Lexeme} {l : Lexeme} (hl : l.token.isSlash = false) :
    findComment before (ls ++ l :: ms) = .none ↔
      findComment before ls = .none ∧ findComment l.text.getLast? ms = .none := by
  have hslash : (l.token == .delim '/') = false := by
    rw [beq_eq_false_iff_ne]
    intro h
    rw [h] at hl
    exact absurd hl (by decide)
  have hcomment : (l.token == .comment) = false := by
    rw [beq_eq_false_iff_ne]
    intro h
    rw [h] at hl
    exact absurd hl (by decide)
  have hself (b : Option Char) : findComment b (l :: ms) = .none ↔ findComment l.text.getLast? ms = .none := by
    cases ms with
    | nil => exact ⟨fun _ => rfl, fun _ => rfl⟩
    | cons m ms => simp [findComment, hslash]
  induction ls generalizing before with
  | nil => exact (hself before).trans ⟨fun h => ⟨rfl, h⟩, And.right⟩
  | cons k ls ih =>
    cases ls with
    | nil =>
      have hk : findComment before (k :: l :: ms) = findComment k.text.getLast? (l :: ms) := by
        simp [findComment, hslash, hcomment]
      rw [List.singleton_append, hk, hself]
      exact ⟨fun h => ⟨rfl, h⟩, And.right⟩
    | cons m ls =>
      rw [List.cons_append, List.cons_append, findComment, findComment]
      split
      · simp
      · exact ih

theorem isNone_findComment_unplaced (b : Option Char) (ls : List Lexeme) :
    (findComment b (ls.map Lexeme.unplaced)).isNone = (findComment b ls).isNone := by
  fun_induction findComment b ls with
  | case1 b l m rest hif =>
    simp only [List.map_cons, findComment, Lexeme.unplaced, hif, if_true, Option.isNone_some]
  | case2 b l m rest hif ih =>
    rw [← ih]
    simp only [List.map_cons, findComment, Lexeme.unplaced, if_neg hif]
  | case3 ls b hls =>
    obtain _ | ⟨l, _ | ⟨m, rest⟩⟩ := ls
    · rfl
    · rfl
    · exact absurd rfl (hls l m rest)

/-- The places of the lexemes have no say in whether there is a comment. -/
theorem findComment_of_unplaced {b : Option Char} {ls ms : List Lexeme}
    (h : ls.map Lexeme.unplaced = ms.map Lexeme.unplaced) (hls : findComment b ls = .none) : findComment b ms = .none := by
  rw [← Option.isNone_iff_eq_none] at hls ⊢
  rw [← isNone_findComment_unplaced, ← h, isNone_findComment_unplaced, hls]

/-! ## The spaces over the ranges -/

/-- Where the spaces among the lexemes stand, with `offset` bytes before them. -/
def spaces (offset : Nat) : List Lexeme → List ByteRange
  | [] => []
  | l :: ls =>
    let next := offset + utf8Length l.text
    if l.token == .space then ⟨offset, next⟩ :: spaces next ls else spaces next ls

/-- The range lies in one space. -/
def InSpace (offset : Nat) (ls : List Lexeme) (r : ByteRange) : Prop :=
  ∃ space ∈ spaces offset ls, space.start ≤ r.start ∧ r.stop ≤ space.stop

instance (offset : Nat) (ls : List Lexeme) (r : ByteRange) : Decidable (InSpace offset ls r) :=
  inferInstanceAs (Decidable (∃ space ∈ spaces offset ls, space.start ≤ r.start ∧ r.stop ≤ space.stop))

/-- The range of a comment lies in one space, but for its first byte where an
escape stands before it and takes that byte for its end. -/
def Covered (offset : Nat) (s : List Char) (ls : List Lexeme) (r : ByteRange) : Prop :=
  InSpace offset ls r ∨ InSpace offset ls ⟨r.start + 1, r.stop⟩ ∧
    ∃ before, before <+: s ∧ offset + utf8Length before = r.start ∧ EndsInEscape before

theorem spaces_append (k : Nat) (ls ms : List Lexeme) :
    spaces k (ls ++ ms) = spaces k ls ++ spaces (k + utf8Length (ls.flatMap (·.text))) ms := by
  induction ls generalizing k with
  | nil => rfl
  | cons l ls ih =>
    simp only [List.cons_append, spaces, ih, List.flatMap_cons, utf8Length_append, Nat.add_assoc]
    split <;> rfl

theorem spaces_unplaced (k : Nat) (ls : List Lexeme) : spaces k (ls.map Lexeme.unplaced) = spaces k ls := by
  induction ls generalizing k with
  | nil => rfl
  | cons l ls ih => simp only [List.map_cons, spaces, Lexeme.unplaced, ih]

theorem InSpace.append {k : Nat} {front ls : List Lexeme} {r : ByteRange}
    (h : InSpace (k + utf8Length (front.flatMap (·.text))) ls r) : InSpace k (front ++ ls) r := by
  obtain ⟨space, hspace, hr⟩ := h
  refine ⟨space, ?_, hr⟩
  rw [spaces_append]
  exact List.mem_append_right _ hspace

/-- The space that some lexemes begin with is that of the text `x` before them too. -/
theorem InSpace.merge {k start : Nat} {ls rs : List Lexeme} {x w : List Char} {r : ByteRange}
    (h : InSpace (k + utf8Length x) ls r) (hls : w = [] ∧ ls = rs ∨ ls = ⟨.space, w, start⟩ :: rs) :
    InSpace k (⟨.space, x ++ w, 0⟩ :: rs) r := by
  obtain ⟨space, hspace, hstart, hstop⟩ := h
  have hspaces : spaces k (⟨.space, x ++ w, 0⟩ :: rs) =
      ⟨k, k + utf8Length (x ++ w)⟩ :: spaces (k + utf8Length (x ++ w)) rs := rfl
  rw [InSpace, hspaces]
  rcases hls with ⟨rfl, rfl⟩ | rfl
  · rw [List.append_nil]
    exact ⟨space, List.mem_cons_of_mem _ hspace, hstart, hstop⟩
  · rw [utf8Length_append, ← Nat.add_assoc]
    rcases List.mem_cons.1 hspace with rfl | hspace
    · exact ⟨_, List.mem_cons_self, (Nat.le_add_right k _).trans hstart, hstop⟩
    · exact ⟨space, List.mem_cons_of_mem _ hspace, hstart, hstop⟩

/-- The last of the lexemes before a comment that is shown as `spaces`, and of the
comment: a space, that ends with what stands behind the comment. -/
theorem exists_of_blank {spaces w : List Char} {ls new : List Lexeme} (h : Blank (spaces ++ w) ls new)
    (hs : spaces ≠ []) :
    ∃ front x, new = front ++ [⟨.space, x ++ w, 0⟩] ∧ front.flatMap (·.text) ++ x = ls.flatMap (·.text) ++ spaces ∧
      (front.flatMap (·.text) <+: ls.flatMap (·.text) ∨
        front.flatMap (·.text) = ls.flatMap (·.text) ++ [' '] ∧ EndsInEscape (ls.flatMap (·.text))) ∧
      (findComment .none ls = .none → findComment .none front = .none) := by
  cases h with
  | kept front more hls =>
    subst hls
    refine ⟨front, more.flatMap (·.text) ++ spaces, by simp, by simp, .inl ?_, fun h => findComment_append h⟩
    rw [List.flatMap_append]
    exact List.prefix_append _ _
  | @taken front l t space hl ht hw =>
    obtain ⟨c, spaces, rfl⟩ := List.exists_cons_of_ne_nil hs
    obtain ⟨rfl, rfl⟩ := List.cons.inj hw
    refine ⟨front ++ [⟨t, l.text ++ [' '], 0⟩], spaces, by simp, by simp, .inr ⟨by simp, ?_⟩, fun h => ?_⟩
    · rw [List.flatMap_append, List.flatMap_singleton]
      exact hl.append _
    · exact (findComment_append_iff ht).2 ⟨findComment_append h, rfl⟩

section

variable {before after x w : List Char} {front ls rs : List Lexeme} {k n start : Nat}

/-- The comment that has been shown as a space is covered by that space. -/
theorem covered_first (hlength : utf8Length (front.flatMap (·.text)) + utf8Length x = utf8Length before + n)
    (hfront : front.flatMap (·.text) <+: before ∨ front.flatMap (·.text) = before ++ [' '] ∧ EndsInEscape before) :
    Covered k (before ++ after) (front ++ ⟨.space, x ++ w, 0⟩ :: rs)
      ⟨k + utf8Length before, k + utf8Length before + n⟩ := by
  have hspace {r : ByteRange} (hstart : k + utf8Length (front.flatMap (·.text)) ≤ r.start)
      (hstop : r.stop ≤ k + utf8Length (front.flatMap (·.text)) + utf8Length x) :
      InSpace k (front ++ ⟨.space, x ++ w, 0⟩ :: rs) r := by
    refine InSpace.append ⟨_, List.mem_cons_self, hstart, ?_⟩
    change r.stop ≤ k + utf8Length (front.flatMap (·.text)) + utf8Length (x ++ w)
    rw [utf8Length_append]
    omega
  rcases hfront with ⟨y, hy⟩ | ⟨hy, hescape⟩
  · have hle := congrArg utf8Length hy
    rw [utf8Length_append] at hle
    refine .inl (hspace ?_ ?_)
    · simp only
      omega
    · simp only
      omega
  · have hle : utf8Length (front.flatMap (·.text)) = utf8Length before + 1 := by
      rw [hy, utf8Length_append]
      rfl
    refine .inr ⟨hspace ?_ ?_, before, List.prefix_append _ _, rfl, hescape⟩
    · simp only
      omega
    · simp only
      omega

/-- What is covered behind a comment is so with the comment before it. -/
theorem Covered.merge {text : List Char} {r : ByteRange} (h : Covered (k + utf8Length before + utf8Length text) after ls r)
    (hlength : utf8Length (front.flatMap (·.text)) + utf8Length x = utf8Length before + utf8Length text)
    (hls : w = [] ∧ ls = rs ∨ ls = ⟨.space, w, start⟩ :: rs) :
    Covered k (before ++ (text ++ after)) (front ++ ⟨.space, x ++ w, 0⟩ :: rs) r := by
  have hk : k + utf8Length before + utf8Length text = k + utf8Length (front.flatMap (·.text)) + utf8Length x := by omega
  rw [hk] at h
  rcases h with h | ⟨h, own, hown, hstart, hescape⟩
  · exact .inl (h.merge hls).append
  · refine .inr ⟨(h.merge hls).append, before ++ (text ++ own), ?_, ?_, (hescape.append _).append _⟩
    · exact (List.prefix_append_right_inj _).2 ((List.prefix_append_right_inj _).2 hown)
    · rw [utf8Length_append, utf8Length_append]
      omega

/-- Where a space is all that stands between lexemes without comments, there is none. -/
theorem findComment_around (hxw : ∀ c ∈ x ++ w, isSpace c = true) (hfront : findComment .none front = .none)
    (hclear : findComment .none ls = .none) (hls : w = [] ∧ ls = rs ∨ ls = ⟨.space, w, start⟩ :: rs) :
    findComment .none (front ++ ⟨.space, x ++ w, 0⟩ :: rs) = .none := by
  have hcolon {y : List Char} (hy : ∀ c ∈ y, isSpace c = true) : y.getLast? ≠ .some ':' :=
    fun h => absurd (hy ':' (List.mem_of_getLast? h)) (by decide)
  refine (findComment_append_iff rfl).2 ⟨hfront, ?_⟩
  rcases hls with ⟨rfl, rfl⟩ | rfl
  · have hnothing : Option.none ≠ .some ':' := nofun
    exact (findComment_congr (iff_of_false (hcolon hxw) hnothing) ls).trans hclear
  · have hw : w.getLast? ≠ .some ':' := hcolon fun c hc => hxw c (List.mem_append_right x hc)
    rw [← List.nil_append (_ :: rs), findComment_append_iff rfl] at hclear
    exact (findComment_congr (iff_of_false (hcolon hxw) hw) rs).trans hclear.2

end

/-- What is read of masked text: no comment, and a space over each range. -/
structure ReadsMasked (s : List Char) (cells : List Cell) (ls : List Lexeme) : Prop where
  tiled : Tiled ls
  text : ls.flatMap (·.text) = shown cells
  clear : findComment .none ls = .none
  covered : ∀ k, ∀ r ∈ ranges k cells, Covered k s ls r

theorem replicate_slashes (rest : List Char) :
    List.replicate (utf8Length ('/' :: '/' :: rest)) ' ' = ' ' :: ' ' :: List.replicate (utf8Length rest) ' ' := by
  have hlength : utf8Length ('/' :: '/' :: rest) = utf8Length rest + 1 + 1 := by
    rw [utf8Length_cons, utf8Length_cons, show '/'.utf8Size = 1 from rfl]
    omega
  rw [hlength, List.replicate_succ, List.replicate_succ]

theorem exists_readsMasked (s : List Char) : ∃ ls, ReadsMasked s (maskFrom s) ls := by
  refine maskFrom_induction (P := fun s cells => ∃ ls, ReadsMasked s cells ls) ?_ ?_ s
  · intro s h
    refine ⟨lexemes s, tiled_lexemes s, by rw [lexemes_text, shown_map_codeCell], h, fun k r hr => ?_⟩
    rw [ranges_map_codeCell] at hr
    cases hr
  · rintro before rest after ⟨-, code, more, htiled, rfl, hmore, hnone⟩ ⟨ls, hls, htext, hclear, hcovered⟩
    -- the space that begins behind the comment, and what is read after it
    obtain ⟨w, start, rs, hw, hrs, hhead, hcut⟩ := hls.exists_space
    have htail : w ++ rs.flatMap (·.text) = shown (maskFrom after) := by
      rw [← htext]
      rcases hcut with ⟨rfl, rfl⟩ | rfl <;> rfl
    generalize hblank : List.replicate (utf8Length ('/' :: '/' :: rest)) ' ' = blank
    have hlength : utf8Length blank = utf8Length ('/' :: '/' :: rest) := by rw [← hblank, utf8Length_spaces]
    have hspaces : ∀ c ∈ blank ++ w, isSpace c = true := by
      intro c hc
      rcases List.mem_append.1 hc with hc | hc
      · rw [← hblank] at hc
        rw [(List.mem_replicate.1 hc).2]
        rfl
      · exact hw c hc
    have hslashes := hblank.symm.trans (replicate_slashes rest)
    obtain ⟨new, hnew, htiled⟩ := htiled.blank hspaces hrs hhead hmore (by rw [hslashes]; rfl)
    obtain ⟨front, x, rfl, hx, hfront, hclear'⟩ := exists_of_blank hnew (by simp [hslashes])
    rw [List.append_assoc, List.singleton_append] at htiled
    have hlengths := congrArg utf8Length hx
    rw [utf8Length_append, utf8Length_append, hlength] at hlengths
    refine ⟨_, htiled, ?_, ?_, fun k r hr => ?_⟩
    · rw [shown_append, shown_append, shown_map_codeCell, shown_commentCells, hblank, ← htail, ← List.append_assoc, ← hx]
      simp
    · exact findComment_around (fun c hc => htiled.of_append.1.isSpace_of_mem hc) (hclear' hnone) hclear hcut
    · rw [ranges_first] at hr
      rcases List.mem_cons.1 hr with rfl | hr
      · exact covered_first hlengths hfront
      · exact (hcovered _ r hr).merge hlengths hcut

/-- Masking finds line comments and moves nothing. Their ranges follow on each
other and are none of them empty, each is that of a comment, and a space of the
masked text lies over it, but for the first byte of a comment that follows on an
escape. The masked text is the text with spaces there, and no comment is found
in it. -/
theorem maskFrom_ranges (s : List Char) :
    (ranges 0 (maskFrom s)).Pairwise (fun r r' => r.stop ≤ r'.start) ∧
      (∀ r ∈ ranges 0 (maskFrom s),
        r.start < r.stop ∧ CommentAt s r ∧ Covered 0 s (lexemes (shown (maskFrom s))) r) ∧
      (bytes (shown (maskFrom s))).length = (bytes s).length ∧
      bytes (shown (maskFrom s)) = blanked 0 (ranges 0 (maskFrom s)) (bytes s) ∧
      ranges 0 (maskFrom (shown (maskFrom s))) = [] := by
  obtain ⟨hpairwise, hbounds⟩ := ranges_ordered s 0
  have hbytes := bytes_maskFrom s 0
  obtain ⟨ls, hls, htext, hclear, hcovered⟩ := exists_readsMasked s
  have hunplaced := lexemesFrom_of_tiled hls 0
  rw [htext] at hunplaced
  have hspaces : spaces 0 (lexemes (shown (maskFrom s))) = spaces 0 ls := by
    rw [← spaces_unplaced, lexemes, hunplaced, spaces_unplaced]
  refine ⟨hpairwise, fun r hr => ⟨(hbounds r hr).2.1, commentAt_of_mem s [] nofun r hr, ?_⟩, ?_, hbytes, ?_⟩
  · rw [Covered, InSpace, InSpace, hspaces]
    exact hcovered 0 r hr
  · rw [hbytes, length_blanked]
  · have hnone : findComment .none (lexemes (shown (maskFrom s))) = .none :=
      findComment_of_unplaced hunplaced.symm hclear
    have hcode : maskFrom (shown (maskFrom s)) = (shown (maskFrom s)).map codeCell := by
      rw [maskFrom, hnone]
    rw [hcode, ranges_map_codeCell]

/-- A comment right behind an escape: the escape takes the first space for its
end, so the first slash is read as part of the value. -/
theorem maskFrom_escape :
    ranges 0 (maskFrom "$a: \\41//c\n".toList) = [⟨7, 10⟩] ∧
      ¬ InSpace 0 (lexemes (shown (maskFrom "$a: \\41//c\n".toList))) ⟨7, 10⟩ ∧
      Sheet.parse .scss .none "$a: \\41//c\n" =
        .ok ⟨[.declaration "$a" "\\41/" ⟨"", ": ", "/c\n"⟩ false], "", .none⟩ :=
  ⟨by decide +kernel, by decide +kernel, by with_unfolding_all rfl⟩

end ThemeVars.Masking
