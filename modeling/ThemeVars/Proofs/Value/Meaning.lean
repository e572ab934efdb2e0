/-
What a value means: its text with every reference replaced, without blanks.
`Becomes.meaning`: a value keeps its meaning where what is put in the place of a
reference means what that stands for. `stripPriority_writes`: what is written
of a body is the body of what is written with markers behind it.
-/
import ThemeVars.Proofs.Value.Priority
import ThemeVars.Proofs.Value.Recasting
import ThemeVars.Variable.Resolution

namespace ThemeVars

open Text

/-- The characters of the text that are no blanks. -/
def inked (s : String) : List Char := s.toList.filter fun c => !isBlank c

theorem inked_append (s t : String) : inked (s ++ t) = inked s ++ inked t := by
  rw [inked, String.toList_append, List.filter_append]
  rfl

namespace Value

theorem inked_spaces {s : String} (h : IsSpaces s) : inked s = [] := by
  rw [inked, List.filter_eq_nil_iff]
  intro c hc
  simp [isBlank_of_isSpace (h c hc)]

/-! ## The meaning of a value -/

section

-- What a reference stands for; nothing, where its fallback does.
variable (find : Reference → Except Error (Option Expansion))

/-- The text that the value comes to, without blanks. -/
def meaning (v : Value) : Except Error (List Char) := (v.expand find).map fun e => inked e.1

/-- One meaning after the other. -/
def joining (x y : Except Error (List Char)) : Except Error (List Char) := do
  let a ← x
  let b ← y
  return a ++ b

theorem joining_nil (x : Except Error (List Char)) : joining (.ok []) x = x := by
  cases x <;> rfl

theorem joining_assoc (x y z : Except Error (List Char)) : joining (joining x y) z = joining x (joining y z) := by
  cases x with
  | error => rfl
  | ok a =>
    cases y with
    | error => rfl
    | ok b =>
      cases z with
      | error => rfl
      | ok c => exact congrArg Except.ok (List.append_assoc a b c)

theorem map_inked_append (x y : Except Error Expansion) :
    (do
      let a ← x
      let b ← y
      return a.append b : Except Error Expansion).map (fun e => inked e.1) =
      joining (x.map fun e => inked e.1) (y.map fun e => inked e.1) := by
  cases x with
  | error => rfl
  | ok a =>
    cases y with
    | error => rfl
    | ok b => exact congrArg Except.ok (inked_append a.1 b.1)

theorem meaning_done : meaning find .done = .ok [] := rfl

theorem meaning_text (s : String) (v : Value) : meaning find (.text s v) = joining (.ok (inked s)) (meaning find v) :=
  map_inked_append (.ok (s, [])) (v.expand find)

theorem meaning_interpolation (a v : Value) :
    meaning find (.interpolation a v) = joining (meaning find a) (meaning find v) :=
  map_inked_append (a.expand find) (v.expand find)

/-- A reference means what is found, or what its fallback means. -/
theorem meaning_guarded (r : Reference) (a v : Value) :
    meaning find (.guarded r a v) =
      find r >>= fun found => joining (found.elim (meaning find a) fun e => .ok (inked e.1)) (meaning find v) := by
  rw [meaning, expand]
  cases find r with
  | error => rfl
  | ok found =>
    cases found with
    | none => exact map_inked_append (a.expand find) (v.expand find)
    | some e => exact map_inked_append (.ok e) (v.expand find)

/-- Without a fallback, nothing is the fallback. -/
theorem meaning_reference (r : Reference) (v : Value) : meaning find (.reference r v) = meaning find (.guarded r .done v) := by
  rw [meaning_guarded, meaning, expand]
  cases find r with
  | error => rfl
  | ok found =>
    cases found with
    | none => exact map_inked_append (.ok .empty) (v.expand find)
    | some e => exact map_inked_append (.ok e) (v.expand find)

theorem meaning_consText (s : String) (v : Value) : meaning find (consText s v) = joining (.ok (inked s)) (meaning find v) := by
  unfold consText
  split
  · rename_i hs
    rw [String.isEmpty_iff.1 hs]
    exact (joining_nil _).symm
  · split
    · rw [meaning_text, meaning_text, ← joining_assoc, inked_append]
      rfl
    · exact meaning_text find s v

theorem meaning_append (v w : Value) : meaning find (v.append w) = joining (meaning find v) (meaning find w) := by
  induction v with
  | done => exact (joining_nil _).symm
  | text s rest ih => rw [append, meaning_consText, ih, meaning_text, joining_assoc]
  | interpolation a rest _ ih => rw [append, meaning_interpolation, ih, meaning_interpolation, joining_assoc]
  | reference r rest ih =>
    rw [append, meaning_reference, meaning_guarded, ih, meaning_reference, meaning_guarded]
    cases find r with
    | error => rfl
    | ok found => exact (joining_assoc _ _ _).symm
  | guarded r a rest _ ih =>
    rw [append, meaning_guarded, ih, meaning_guarded]
    cases find r with
    | error => rfl
    | ok found => exact (joining_assoc _ _ _).symm

theorem meaning_append_spaces {s : String} (hs : IsSpaces s) (v : Value) :
    meaning find (v.append (consText s .done)) = meaning find v := by
  rw [meaning_append, meaning_consText, inked_spaces hs, meaning_done]
  cases meaning find v with
  | error => rfl
  | ok a => exact congrArg Except.ok (List.append_nil a)

end

section

variable {find : Reference → Except Error (Option Expansion)} {keeps : Reference → Bool → Prop} {b : Bool} {v w : Value}

/-- The value means what the reference stands for. -/
def StandsFor (find : Reference → Except Error (Option Expansion)) (r : Reference) (x : Value) : Prop :=
  ∃ e, find r = .ok (.some e) ∧ meaning find x = .ok (inked e.1)

/-- What a value becomes means what it meant, if each reference goes by its name
and has in its place what means the same: an induction on how it becomes so. -/
theorem Becomes.meaning (hfind : ∀ r r' : Reference, r.name = r'.name → find r = find r')
    (h : Becomes keeps (fun r _ x => StandsFor find r x) b v w) : meaning find w = meaning find v := by
  induction h with
  | done => rfl
  | text _ ih => rw [meaning_consText, meaning_consText, ih]
  | append _ _ iha ih => rw [meaning_append, meaning_append, iha, ih]
  | interpolation _ _ iha ih => rw [meaning_interpolation, meaning_interpolation, iha, ih]
  | kept _ _ ih => rw [meaning_reference, meaning_guarded, ih, meaning_reference, meaning_guarded]
  | stays _ _ _ _ ih => rw [meaning_guarded, meaning_guarded, ih]
  | @anew b r a a' s raw v w _ _ hs _ _ iha ih =>
    rw [meaning_append_spaces find hs] at iha
    rw [meaning_guarded, meaning_guarded, iha, ih, hfind { r with raw } r rfl]
  | put hx _ ih =>
    obtain ⟨e, he, hx⟩ := hx
    rw [meaning_append, hx, ih, meaning_reference, meaning_guarded, he]
    rfl
  | putGuarded _ hx _ ih =>
    obtain ⟨e, he, hx⟩ := hx
    rw [meaning_append, hx, ih, meaning_guarded, he]
    rfl

end

/-! ## Markers behind what is written -/

/-- The second text ends as the first does, up to a character that no marker
goes past. -/
def EndsAlike (s o : List Char) : Prop :=
  o = s ∨ ∃ t x y c, Stops c ∧ o.reverse = t ++ c :: x ∧ s.reverse = t ++ y

/-- No marker goes past a closing bracket. -/
theorem stops_closer (bracket : Bracket) : ∃ c, bracket.closer.toList = [c] ∧ Stops c := by
  cases bracket with
  | round => exact ⟨')', rfl, rfl, rfl, by decide⟩
  | square => exact ⟨']', rfl, rfl, rfl, by decide⟩
  | curly => exact ⟨'\x7d', rfl, rfl, rfl, by decide⟩

section

variable {s o : List Char}

theorem EndsAlike.before (h : EndsAlike s o) (a : List Char) : EndsAlike (a ++ s) (a ++ o) := by
  rcases h with rfl | ⟨t, x, y, c, hc, ho, hs⟩
  · exact .inl rfl
  · exact .inr ⟨t, x ++ a.reverse, y ++ a.reverse, c, hc, by simp [ho], by simp [hs]⟩

theorem EndsAlike.behind (bracket : Bracket) (h : EndsAlike s o) (a b : List Char) :
    EndsAlike (a ++ s) ((b ++ bracket.closer.toList) ++ o) := by
  obtain ⟨c, hcloser, hc⟩ := stops_closer bracket
  rw [hcloser]
  rcases h with rfl | ⟨t, x, y, d, hd, ho, hs⟩
  · exact .inr ⟨o.reverse, b.reverse, a.reverse, c, hc, by simp, by simp⟩
  · exact .inr ⟨t, x ++ c :: b.reverse, y ++ a.reverse, d, hd, by simp [ho], by simp [hs]⟩

theorem EndsAlike.unmarked (h : EndsAlike s o) (hs : Unmarked s.reverse) : Unmarked o.reverse := by
  rcases h with rfl | ⟨t, x, y, c, hc, ho, hy⟩
  · exact hs
  · rw [ho]
    rw [hy] at hs
    exact hs.past hc

end

section

variable {answers : Reference → Bool → Option String → Prop} {b : Bool} {v : Value} {out : String}

/-- Where every answer ends with a parenthesis, what is written ends as the value
does, or with a bracket. -/
theorem Writes.endsAlike (ha : ∀ r b new, answers r b (.some new) → ∃ front, new.toList = front ++ Bracket.round.closer.toList)
    (h : Writes answers b v out) : EndsAlike v.verbatim.toList out.toList := by
  induction h with
  | done => exact .inl rfl
  | @text _ s v o _ ih =>
    rw [verbatim, String.toList_append, String.toList_append]
    exact ih.before s.toList
  | @interpolation _ a v i o _ _ _ ih =>
    have hclosed (t : String) : (interpolated t).toList = ('#' :: '\x7b' :: t.toList) ++ Bracket.curly.closer.toList := by
      simp [interpolated, Bracket.closer]
    rw [verbatim, String.toList_append, String.toList_append, hclosed i]
    exact ih.behind .curly _ _
  | @reference _ r v new o hr _ ih =>
    rw [verbatim, String.toList_append, String.toList_append]
    cases new with
    | none => exact ih.before _
    | some new =>
      obtain ⟨front, hfront⟩ := ha _ _ _ hr
      rw [Option.getD_some, hfront]
      exact ih.behind .round _ _
  | @replaced _ r a v new o hr _ ih =>
    obtain ⟨front, hfront⟩ := ha _ _ _ hr
    rw [verbatim, String.toList_append, String.toList_append, hfront]
    exact ih.behind .round _ _
  | @kept _ r a v o _ _ _ _ ih =>
    rw [verbatim, String.toList_append, String.toList_append]
    exact ih.before _
  | @anew _ r a v i o _ _ _ _ _ ih =>
    have hclosed : (varText r.name i.trimmedEnd).toList =
        ("var(" ++ r.name ++ ", " ++ i.trimmedEnd).toList ++ Bracket.round.closer.toList := by
      rw [varText, String.toList_append]
      rfl
    rw [verbatim, String.toList_append, String.toList_append, hclosed]
    exact ih.behind .round _ _

/-- A value ends as its text does, or with a bracket. -/
theorem ReadsAs.endsAlike {sigil : Option Char} {p : Pieces} (h : ReadsAs sigil p v) : EndsAlike p.text v.verbatim.toList := by
  induction h with
  | done => exact .inl rfl
  | text _ _ ih =>
    rw [verbatim_consText, String.toList_append, String.toList_ofList, Pieces.text_leaf]
    exact ih.before _
  | @interpolation l cs opener inner closer rest a b _ _ _ _ _ ih =>
    have hbehind := ih.behind .curly (l.text ++ cs.flatMap (·.text) ++ Pieces.blockText opener inner closer)
      ('#' :: '\x7b' :: a.verbatim.toList)
    rw [Pieces.text_leaf, text_leaves, Pieces.text_block]
    simpa [verbatim, Value.interpolated, Bracket.closer] using hbehind
  | atKeyword _ _ _ ih =>
    rw [verbatim, String.toList_append, String.toList_ofList, Pieces.text_leaf]
    exact ih.before _
  | @sigil l c cs m name rest v _ _ _ _ _ _ ih =>
    have hbefore := ih.before (l.text ++ (cs.flatMap (·.text) ++ m.text))
    rw [verbatim, String.toList_append, String.toList_ofList, Pieces.text_leaf, text_leaves, Pieces.text_leaf]
    simpa using hbefore
  | var _ _ _ ih =>
    rw [verbatim, String.toList_append, String.toList_ofList, Pieces.text_block]
    exact ih.before _
  | guarded _ _ _ _ _ ih =>
    rw [verbatim, String.toList_append, String.toList_ofList, Pieces.text_block]
    exact ih.before _
  | @block opener bracket inner closer rest a v _ _ _ _ ih =>
    have hbehind := ih.behind bracket (Pieces.blockText opener inner closer) (opener.text ++ a.verbatim.toList)
    rw [verbatim_consText, verbatim_append, verbatim_consText, Pieces.text_block]
    simpa using hbehind

/-- What is written of a body has nothing at its end that would be cut off, and
the markers that are written behind it are. -/
theorem stripPriority_writes {sigil : Option Char} {body p : String}
    (ha : ∀ r b new, answers r b (.some new) → ∃ front, new.toList = front ++ Bracket.round.closer.toList)
    (hread : Value.read sigil body = .ok v) (h : Writes answers b v out) (hbody : Unmarked body.toList.reverse)
    (hp : IsPriority p.toList) : stripPriority (out ++ p) = out := by
  have hends := (readsAs_iff.1 hread).endsAlike
  rw [Pieces.text_ofText] at hends
  exact stripPriority_append hp ((h.endsAlike ha).unmarked (hends.unmarked hbody))

end

end Value

end ThemeVars
