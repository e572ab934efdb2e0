/-
Values read again after some of their references have been replaced. `Becomes`
says what a value comes to then. `exists_recast`: what a rewriting writes is read
as such a value, if the answers fit in the place of the references and each
`var()` that is written anew can be. The induction is on how the value was read;
the pieces of the new text are put together beside those of the old.
-/
import ThemeVars.Proofs.Value.Occurrences
import ThemeVars.Proofs.Value.Reshaping

namespace ThemeVars

open Text

/-! ## Occurrences in the place of others -/

section

variable (A : Occurrence → List Occurrence → Prop)

/-- Each occurrence has such ones in its place. -/
inductive Spliced : List Occurrence → List Occurrence → Prop
  | nil : Spliced [] []
  | cons {e es l l'} : A e es → Spliced l l' → Spliced (e :: l) (es ++ l')

variable {A}

theorem Spliced.append {l l' m m' : List Occurrence} (h : Spliced A l l') (hm : Spliced A m m') :
    Spliced A (l ++ m) (l' ++ m') := by
  induction h with
  | nil => exact hm
  | cons he _ ih =>
    rw [List.cons_append, List.append_assoc]
    exact .cons he ih

theorem Spliced.kept {e : Occurrence} {l l' : List Occurrence} (he : A e [e]) (h : Spliced A l l') :
    Spliced A (e :: l) (e :: l') := .cons he h

/-- One in the place of each. -/
theorem Spliced.eq_map {g : Occurrence → Occurrence} {l l' : List Occurrence} (h : Spliced (fun e es => es = [g e]) l l') :
    l' = l.map g := by
  induction h with
  | nil => rfl
  | cons he _ ih =>
    rw [he, ih]
    rfl

end

namespace Value

open Pieces (leaves Reshaped)

/-! ## Values one after the other -/

theorem consText_consText (s t : String) (v : Value) : consText s (consText t v) = consText (s ++ t) v := by
  by_cases hs : s = ""
  · simp [hs, consText]
  by_cases ht : t = ""
  · simp [ht, consText]
  have hst : (s ++ t).isEmpty = false := by simp [hs]
  have hs' : s.isEmpty = false := by simpa using hs
  have ht' : t.isEmpty = false := by simpa using ht
  cases v <;> simp [consText, hs', ht', hst, String.append_assoc]

theorem append_consText (s : String) (v w : Value) : (consText s v).append w = consText s (v.append w) := by
  by_cases hs : s.isEmpty = true
  · simp [consText, hs]
  cases v with
  | text t rest =>
    rw [show consText s (.text t rest) = .text (s ++ t) rest by simp only [consText, if_neg hs], append, append,
      consText_consText]
  | done => simp only [consText, if_neg hs, append]
  | interpolation => simp only [consText, if_neg hs, append]
  | reference => simp only [consText, if_neg hs, append]
  | guarded => simp only [consText, if_neg hs, append]

theorem append_assoc (u v w : Value) : (u.append v).append w = u.append (v.append w) := by
  induction u with
  | done => rfl
  | text s rest ih => rw [append, append, append_consText, ih]
  | interpolation inner rest _ ih => rw [append, append, append, ih]
  | reference r rest ih => rw [append, append, append, ih]
  | guarded r fallback rest _ ih => rw [append, append, append, ih]

/-! ## What a value becomes -/

/-- Space only. -/
def IsSpaces (s : String) : Prop := ∀ c ∈ s.toList, isSpace c = true

theorem isSpaces_empty : IsSpaces "" := fun _ hc => absurd hc List.not_mem_nil

section

-- Which references may be kept, and what may take the place of which.
variable (keeps : Reference → Bool → Prop) (puts : Reference → Bool → Value → Prop)

/-- The second value is the first with others in the place of some references.
A kept reference has another text where its fallback has, and that loses the
space at its end. -/
inductive Becomes : Bool → Value → Value → Prop
  | done {b} : Becomes b .done .done
  | text {b s v w} : Becomes b v w → Becomes b (consText s v) (consText s w)
  | append {b a a' v w} : Becomes b a a' → Becomes b v w → Becomes b (a.append v) (a'.append w)
  | interpolation {b a a' v w} : Becomes true a a' → Becomes b v w → Becomes b (.interpolation a v) (.interpolation a' w)
  | kept {b r v w} : keeps r b → Becomes b v w → Becomes b (.reference r v) (.reference r w)
  | stays {b r a v w} : keeps r b → Becomes b a a → Becomes b v w → Becomes b (.guarded r a v) (.guarded r a w)
  | anew {b r a a' s raw v w} : keeps r b → Becomes b a (a'.append (consText s .done)) → IsSpaces s →
    (a'.append (consText s .done)).verbatim ≠ a.verbatim → Becomes b v w →
    Becomes b (.guarded r a v) (.guarded { r with raw } a' w)
  | put {b r x v w} : puts r b x → Becomes b v w → Becomes b (.reference r v) (x.append w)
  | putGuarded {b r a x v w} : r.kind = .var → puts r b x → Becomes b v w → Becomes b (.guarded r a v) (x.append w)

variable {keeps puts} {b : Bool} {v w : Value}

/-- Where nothing is put in, nothing changes. -/
theorem Becomes.eq (h : Becomes keeps puts b v w) (hp : ∀ r b x, ¬ puts r b x) : w = v := by
  induction h with
  | done => rfl
  | text _ ih => rw [ih]
  | append _ _ iha ih => rw [iha, ih]
  | interpolation _ _ iha ih => rw [iha, ih]
  | kept _ _ ih => rw [ih]
  | stays _ _ _ _ ih => rw [ih]
  | anew _ _ _ hne _ iha _ => exact absurd (congrArg verbatim iha) hne
  | put hx => exact absurd hx (hp _ _ _)
  | putGuarded _ hx => exact absurd hx (hp _ _ _)

/-- Where only references by a sigil are replaced, the references are those of
the value, with what is put in in the place of some. -/
theorem Becomes.spliced {A : Occurrence → List Occurrence → Prop}
    (h : Becomes (fun r b => A (r.occurrence b) [r.occurrence b])
      (fun r b x => r.kind = .sigil ∧ A (r.occurrence b) (x.occurrences b)) b v w) :
    Spliced A (v.occurrences b) (w.occurrences b) := by
  induction h with
  | done => exact .nil
  | text _ ih => simpa using ih
  | append _ _ iha ih => simpa using iha.append ih
  | interpolation _ _ iha ih => exact iha.append ih
  | kept hk _ ih => exact .kept hk ih
  | stays hk _ _ iha ih => exact .kept hk (iha.append ih)
  | anew hk _ _ _ _ iha ih => exact .kept hk (.append (by simpa [occurrences] using iha) ih)
  | put hx _ ih =>
    rw [occurrences_append]
    exact .cons hx.2 ih
  | putGuarded hkind hx => cases hkind.symm.trans hx.1

end

/-! ## The ends of what is written anew -/

/-- The last word before the closing parenthesis is firm. -/
def endsFirmly (raw : String) : Bool := (lastWord (lexemes raw.toList).dropLast).all Lexeme.isFirm

/-- Each `var()` with one in its fallback that is asked for can be written
anew: its name needs no escape, and the blanks at the end of the fallback are no
part of a token. -/
def Neat (asks : Occurrence → Bool) : Bool → Value → Prop
  | _, .done => True
  | b, .text _ rest => Neat asks b rest
  | b, .interpolation inner rest => Neat asks true inner ∧ Neat asks b rest
  | b, .reference _ rest => Neat asks b rest
  | b, .guarded r fallback rest =>
    ((fallback.occurrences b).any asks = true → FitsCustom r.name.toList ∧ endsFirmly r.raw = true) ∧
      Neat asks b fallback ∧ Neat asks b rest

/-- Whether a value is neat can be looked up. -/
def decideNeat (asks : Occurrence → Bool) : (b : Bool) → (v : Value) → Decidable (Neat asks b v)
  | _, .done => .isTrue trivial
  | b, .text _ rest => decideNeat asks b rest
  | b, .interpolation inner rest =>
    have := decideNeat asks true inner
    have := decideNeat asks b rest
    inferInstanceAs (Decidable (_ ∧ _))
  | b, .reference _ rest => decideNeat asks b rest
  | b, .guarded _ fallback rest =>
    have := decideNeat asks b fallback
    have := decideNeat asks b rest
    inferInstanceAs (Decidable (_ ∧ _ ∧ _))

instance (asks : Occurrence → Bool) (b : Bool) : DecidablePred (Neat asks b) := decideNeat asks b

section

variable {asks : Occurrence → Bool} {b : Bool}

theorem neat_consText {s : String} {v : Value} : Neat asks b (consText s v) ↔ Neat asks b v := by
  unfold consText
  split
  · exact Iff.rfl
  · split
    · exact Iff.rfl
    · exact Iff.rfl

theorem neat_append {v w : Value} : Neat asks b (v.append w) ↔ Neat asks b v ∧ Neat asks b w := by
  induction v with
  | done => simp [append, Neat]
  | text s rest ih => rw [append, neat_consText, ih, Neat]
  | interpolation inner rest _ ih => simp only [append, Neat, ih, and_assoc]
  | reference r rest ih => rw [append, Neat, ih, Neat]
  | guarded r fallback rest _ ih => simp only [append, Neat, ih, and_assoc]

end

theorem lastWord_unplaced (ls : List Lexeme) : lastWord (ls.map Lexeme.unplaced) = (lastWord ls).map Lexeme.unplaced := by
  induction ls with
  | nil => rfl
  | cons l ls ih =>
    rw [List.map_cons, lastWord, lastWord, ih]
    have hl : l.unplaced.token = l.token := rfl
    rw [hl]
    cases lastWord ls with
    | some m => rfl
    | none =>
      simp only [Option.map_none, Option.none_or]
      split
      · rfl
      · rfl

/-- The last word before the bracket, seen from the text of the lexemes. -/
theorem isFirm_of_endsFirmly {ls : List Lexeme} {closer l : Lexeme} (ht : Tiled (ls ++ [closer]))
    (h : endsFirmly (String.ofList ((ls ++ [closer]).flatMap (·.text))) = true) (hl : lastWord ls = .some l) :
    l.isFirm = true := by
  have hlexemes := lexemesFrom_of_tiled ht 0
  have hword : (lastWord (lexemes ((ls ++ [closer]).flatMap (·.text))).dropLast).map Lexeme.unplaced =
      .some l.unplaced := by
    rw [← lastWord_unplaced, List.map_dropLast, lexemes, hlexemes, ← List.map_dropLast, List.dropLast_concat,
      lastWord_unplaced, hl]
    rfl
  obtain ⟨m, hm, hunplaced⟩ := Option.map_eq_some_iff.1 hword
  rw [endsFirmly, String.toList_ofList, hm] at h
  obtain ⟨htoken, htext⟩ := Lexeme.of_unplaced hunplaced
  rw [Lexeme.isFirm, ← htoken, ← htext]
  exact h

theorem isFirm_closing {l : Lexeme} {bracket : Bracket} {u : List Char} (hl : l.token = .closing bracket)
    (h : Reads l.text u l.token) : l.isFirm = true := by
  rw [hl] at h
  rw [Lexeme.isFirm, hl, h.spelled.closing]
  cases bracket with
  | round => decide
  | square => decide
  | curly => decide

/-! ## Space at the end -/

section

variable {sigil : Option Char} {p : Pieces} {v : Value}

theorem IsText.begins {l : Lexeme} {rest rest' : Pieces} (h : IsText sigil l rest) (hb : Pieces.Begins rest rest') :
    IsText sigil l rest' :=
  ⟨h.badUrl, h.badString, h.atKeyword, fun hl => hb.curlyNext?_eq_none (h.hash hl),
    fun c hl hc hs => hb.nameNext?_eq_none (h.sigil c hl hc hs)⟩

theorem ReadsAs.interpolated {l opener : Lexeme} {inner rest : Pieces} {closer : Option Lexeme} {a : Value}
    (hl : l.token = .delim '#') (ha : ReadsAs sigil inner a) (hv : ReadsAs sigil rest v) :
    ReadsAs sigil (.leaf l (.block opener .curly inner closer rest)) (.interpolation a v) :=
  @ReadsAs.interpolation sigil l [] opener inner closer rest a v hl (fun _ h => (nomatch h)) ha hv

/-- The space at the end can be cut off before the value is read. -/
theorem ReadsAs.cutSpace (h : ReadsAs sigil p v)
    (hp : ∀ l ∈ p.lexemes, l.token = .space → IsSpaces (String.ofList l.text)) :
    ∃ w s, ReadsAs sigil p.cutSpace w ∧ IsSpaces s ∧ v = w.append (consText s .done) := by
  have hblock {opener bracket inner closer rest} :
      (Pieces.block opener bracket inner closer rest).cutSpace = .block opener bracket inner closer rest.cutSpace := rfl
  have hafter {opener : Lexeme} {bracket inner closer rest}
      (hp : ∀ l ∈ (Pieces.block opener bracket inner closer rest).lexemes, l.token = .space → IsSpaces (String.ofList l.text)) :
      ∀ l ∈ rest.lexemes, l.token = .space → IsSpaces (String.ofList l.text) :=
    fun l hl => hp l (by simp [Pieces.lexemes, hl])
  induction h with
  | done => exact ⟨.done, "", .done, isSpaces_empty, rfl⟩
  | @text l rest v hl _ ih =>
    obtain ⟨w, s, hw, hs, rfl⟩ := ih fun m hm => hp m (by simp [Pieces.lexemes, hm])
    by_cases hcut : (l.token == .space && rest.cutSpace.isDone) = true
    · rw [Pieces.cutSpace, if_pos hcut]
      rw [Bool.and_eq_true, beq_iff_eq] at hcut
      rw [Pieces.eq_done_of_isDone hcut.2] at hw
      cases hw
      refine ⟨.done, String.ofList l.text ++ s, .done, fun c hc => ?_, consText_consText _ _ _⟩
      rw [String.toList_append, List.mem_append] at hc
      exact hc.elim (hp l (by simp [Pieces.lexemes]) hcut.1 c) (hs c)
    · rw [Pieces.cutSpace, if_neg hcut]
      exact ⟨_, s, .text (hl.begins (Pieces.begins_cutSpace rest)) hw, hs, (append_consText _ _ _).symm⟩
  | @interpolation l cs opener inner closer rest a v hl hcs ha _ _ ih =>
    obtain ⟨w, s, hw, hs, rfl⟩ := ih fun m hm => hp m (by simp [Pieces.lexemes, Pieces.lexemes_leaves, hm])
    rw [Pieces.cutSpace_leaf (by simp [hl]), Pieces.cutSpace_leaves cs rfl, hblock]
    exact ⟨_, s, .interpolation hl hcs ha hw, hs, rfl⟩
  | @atKeyword l name rest v hl hsigil _ ih =>
    obtain ⟨w, s, hw, hs, rfl⟩ := ih fun m hm => hp m (by simp [Pieces.lexemes, hm])
    rw [Pieces.cutSpace_leaf (by simp [hl])]
    exact ⟨_, s, .atKeyword hl hsigil hw, hs, rfl⟩
  | @sigil l c cs m name rest v hl hc hsigil hcs hm _ ih =>
    obtain ⟨w, s, hw, hs, rfl⟩ := ih fun k hk => hp k (by simp [Pieces.lexemes, Pieces.lexemes_leaves, hk])
    have hname : (Pieces.leaf m rest).cutSpace = .leaf m rest.cutSpace := Pieces.cutSpace_leaf (by simp [hm]) rest
    rw [Pieces.cutSpace_leaf (by simp [hl]), Pieces.cutSpace_leaves cs (by rw [hname]; rfl), hname]
    exact ⟨_, s, .sigil hl hc hsigil hcs hm hw, hs, rfl⟩
  | var ho hparts _ ih =>
    obtain ⟨w, s, hw, hs, rfl⟩ := ih (hafter hp)
    exact ⟨_, s, .var ho hparts hw, hs, rfl⟩
  | guarded ho hparts ha _ _ ih =>
    obtain ⟨w, s, hw, hs, rfl⟩ := ih (hafter hp)
    exact ⟨_, s, .guarded ho hparts ha hw, hs, rfl⟩
  | block ho ha _ _ ih =>
    obtain ⟨w, s, hw, hs, rfl⟩ := ih (hafter hp)
    refine ⟨_, s, .block ho ha hw, hs, ?_⟩
    rw [append_consText, append_assoc, append_consText]

end

theorem trimEnd_blanks {a s : List Char} (hs : ∀ c ∈ s, isBlank c = true) (ha : a.getLast?.any isBlank = false) :
    trimEnd (a ++ s) = a := by
  rw [trimEnd, List.reverse_append, List.dropWhile_append_of_pos fun c hc => hs c (List.mem_reverse.1 hc)]
  cases hr : a.reverse with
  | nil =>
    rw [List.reverse_eq_nil_iff] at hr
    rw [hr]
    rfl
  | cons c cs =>
    have ha' : a = cs.reverse ++ [c] := by rw [← List.reverse_reverse a, hr, List.reverse_cons]
    rw [ha', List.getLast?_append, List.getLast?_singleton] at ha
    rw [List.dropWhile_cons_of_neg (by simpa using ha), ha', List.reverse_cons]

/-- The text of the pieces that are left is that of all, trimmed. -/
theorem text_cutSpace {p : Pieces} {ms : List Lexeme} (hm : p.Matched) (hc : p.Closed) (ht : Tiled (p.lexemes ++ ms))
    (hlast : ∀ l, lastWord p.lexemes = .some l → l.isFirm = true) : p.cutSpace.text = trimEnd p.text := by
  obtain ⟨spaces, hlexemes, hspaces, hword⟩ := Pieces.lexemes_cutSpace hm hc
  have htext : p.text = p.cutSpace.text ++ spaces.flatMap (·.text) := by
    rw [Pieces.text, hlexemes, List.flatMap_append]
    rfl
  rw [htext, trimEnd_blanks]
  · intro c hc
    obtain ⟨s, hs, hc⟩ := List.mem_flatMap.1 hc
    obtain ⟨u, hread⟩ := ht.reads (List.mem_append_left ms (hlexemes ▸ List.mem_append_right _ hs))
    rw [hspaces s hs] at hread
    exact isBlank_of_isSpace (hread.isSpace_of_mem hc)
  · rw [Pieces.text]
    cases hfront : p.cutSpace.lexemes.getLast? with
    | none =>
      rw [List.getLast?_eq_none_iff] at hfront
      rw [hfront]
      rfl
    | some l =>
      obtain ⟨front, hfront'⟩ := List.getLast?_eq_some_iff.1 hfront
      have hfirm := hlast l (hword ▸ hfront)
      simp only [Lexeme.isFirm, Bool.and_eq_true, Bool.not_eq_eq_eq_not, Bool.not_true] at hfirm
      have hne : l.text ≠ [] := by
        obtain ⟨u, hread⟩ := ht.reads (List.mem_append_left ms (hlexemes ▸ List.mem_append_left _ (List.mem_of_getLast? hfront)))
        exact hread.ne_nil
      rw [hfront', List.flatMap_append, List.flatMap_singleton, List.getLast?_append]
      cases hl : l.text.getLast? with
      | none => exact absurd (List.getLast?_eq_none_iff.1 hl) hne
      | some c =>
        rw [hl] at hfirm
        exact hfirm.2

/-! ## What may be put in the place of a reference -/

/-- The reference is read from these leaves. -/
inductive SigilLexemes (sigil : Option Char) : Reference → List Lexeme → Prop
  | atKeyword {l name} : l.token = .atKeyword name → sigil = .some '@' →
    SigilLexemes sigil ⟨"@" ++ name, String.ofList l.text, .sigil⟩ [l]
  | sigil {l c cs m name} : l.token = .delim c → c ≠ '#' → sigil = .some c → AllComments cs → m.token = .ident name →
    SigilLexemes sigil
      ⟨String.ofList (c :: name.toList), String.ofList (l.text ++ (cs.flatMap (·.text) ++ m.text)), .sigil⟩ (l :: (cs ++ [m]))

section

variable {sigil : Option Char} {r : Reference} {ls : List Lexeme}

theorem SigilLexemes.raw (h : SigilLexemes sigil r ls) : r.raw.toList = ls.flatMap (·.text) := by
  cases h with
  | atKeyword => simp
  | sigil => simp

theorem SigilLexemes.reads (h : SigilLexemes sigil r ls) {rest : Pieces} {v : Value} (hv : ReadsAs sigil rest v) :
    ReadsAs sigil (leaves ls rest) (.reference r v) := by
  cases h with
  | atKeyword hl hs => exact .atKeyword hl hs hv
  | @sigil l c cs m name hl hc hs hcs hm =>
    have h := ReadsAs.sigil hl hc hs hcs hm hv
    rw [show leaves (l :: (cs ++ [m])) rest = .leaf l (leaves cs (.leaf m rest)) by simp [leaves]]
    exact h

end

/-- The reference is read from these lexemes. -/
inductive ReferenceLexemes (sigil : Option Char) : Reference → List Lexeme → Prop
  | sigil {r ls} : SigilLexemes sigil r ls → ReferenceLexemes sigil r ls
  | var {opener closer x inner name} : opener.token = .function x → x.lowered = "var" →
    closer.token = .closing .round →
    ReferenceLexemes sigil ⟨name, String.ofList ((opener :: (inner ++ [closer])).flatMap (·.text)), .var⟩
      (opener :: (inner ++ [closer]))

section

variable (S : List Lexeme → Prop) (sigil : Option Char)

/-- The text stands for the value in the place of these lexemes, whatever is
around them. -/
structure Fits (ls : List Lexeme) (new : String) (q : Pieces) (x : Value) : Prop where
  reads : ∀ {rest v}, ReadsAs sigil rest v → ReadsAs sigil (q.append rest) (x.append v)
  text : q.text = new.toList
  verbatim : x.verbatim = new
  matched : q.Matched
  closed : q.Closed
  lacks : ∀ bracket, q.Lacks bracket
  begins : ∀ p rest, Pieces.Begins p (q.append rest)
  closing : ∃ front l bracket, q.lexemes = front ++ [l] ∧ l.token = .closing bracket
  yields : YieldsTo S ls q.lexemes

variable (asks : Occurrence → Bool) (answers : Reference → Bool → Option String → Prop)

/-- A reference may be kept where it is kept, and where it is replaced it is one
that is asked for, and the answer fits in its place. -/
structure Admits (keeps : Reference → Bool → Prop) (puts : Reference → Bool → Value → Prop) : Prop where
  kept : ∀ r b, answers r b .none → keeps r b
  asked : ∀ r b new, answers r b (.some new) → asks (r.occurrence b) = true
  fits : ∀ r b new ls, answers r b (.some new) → ReferenceLexemes sigil r ls →
    ∃ q x, Fits S sigil ls new q x ∧ puts r b x

/-- A reference is kept, or is one by a sigil that is asked for, with a text in
its place that fits there. -/
structure Answers (A : Occurrence → List Occurrence → Prop) : Prop where
  kept : ∀ r b, answers r b .none → A (r.occurrence b) [r.occurrence b]
  asked : ∀ r b new, answers r b (.some new) → asks (r.occurrence b) = true ∧ r.kind = .sigil
  fits : ∀ r b new ls, answers r b (.some new) → SigilLexemes sigil r ls →
    ∃ q x, Fits S sigil ls new q x ∧ A (r.occurrence b) (x.occurrences b)

variable {asks answers} in
theorem Answers.admits {A : Occurrence → List Occurrence → Prop} (h : Answers S sigil asks answers A) :
    Admits S sigil asks answers (fun r b => A (r.occurrence b) [r.occurrence b])
      fun r b x => r.kind = .sigil ∧ A (r.occurrence b) (x.occurrences b) := by
  refine ⟨h.kept, fun r b new hr => (h.asked r b new hr).1, fun r b new ls hr hls => ?_⟩
  have hkind := (h.asked r b new hr).2
  cases hls with
  | sigil hls =>
    obtain ⟨q, x, hq, hA⟩ := h.fits r b new ls hr hls
    exact ⟨q, x, hq, hkind, hA⟩
  | var => cases hkind

/-- Nothing is replaced. -/
theorem admits_none : Admits S sigil asks (fun _ _ new => new = .none) (fun _ _ => True) fun _ _ _ => False :=
  ⟨fun _ _ _ => trivial, fun _ _ _ h => (nomatch h), fun _ _ _ _ h => (nomatch h)⟩

variable (keeps : Reference → Bool → Prop) (puts : Reference → Bool → Value → Prop)

/-- The pieces of what was written, and the value that is read from them. -/
structure Recast (b : Bool) (p : Pieces) (v : Value) (out : String) (p' : Pieces) (w : Value) : Prop extends
    Reshaped S p p' where
  reads : ReadsAs sigil p' w
  text : p'.text = out.toList
  verbatim : w.verbatim = out
  becomes : Becomes keeps puts b v w

variable {S sigil asks answers keeps puts} (hS : ∀ {l ls}, S (l :: ls) → S ls)

include hS

variable {b : Bool} {rest rest' : Pieces} {v w : Value} {o : String}

/-- What fits in the place of pieces is put there. -/
theorem Recast.put {q₀ q : Pieces} {v₀ x : Value} {new : String} (hq : Fits S sigil q₀.lexemes new q x)
    (hbecomes : Becomes keeps puts b v₀ (x.append w)) (h : Recast S sigil keeps puts b rest v o rest' w) :
    Recast S sigil keeps puts b (q₀.append rest) v₀ (new ++ o) (q.append rest') (x.append w) := by
  obtain ⟨front, l, bracket, hlexemes, hl⟩ := hq.closing
  refine ⟨.put hS hq.matched hq.closed hq.lacks hq.begins hlexemes hl hq.yields h.toReshaped, hq.reads h.reads, ?_, ?_,
    hbecomes⟩
  · rw [Pieces.text, Pieces.lexemes_append, List.flatMap_append, String.toList_append, ← h.text]
    exact congrArg (· ++ _) hq.text
  · rw [verbatim_append, hq.verbatim, h.verbatim]

/-- A reference by its name is kept, or has its answer in its place. -/
theorem Recast.reference {r : Reference} {ls : List Lexeme} {new : Option String}
    (ha : Admits S sigil asks answers keeps puts) (hm : (leaves ls rest).Matched) (hls : SigilLexemes sigil r ls)
    (hnew : answers r b new) (h : Recast S sigil keeps puts b rest v o rest' w) :
    ∃ p' w', Recast S sigil keeps puts b (leaves ls rest) (.reference r v) (new.getD r.raw ++ o) p' w' := by
  cases new with
  | none =>
    refine ⟨leaves ls rest', .reference r w, h.toReshaped.leaves hS hm, hls.reads h.reads, ?_, ?_, ?_⟩
    · rw [text_leaves, h.text, ← hls.raw, String.toList_append]
      rfl
    · exact congrArg (r.raw ++ ·) h.verbatim
    · exact .kept (ha.kept r b hnew) h.becomes
  | some new =>
    obtain ⟨q, x, hq, hx⟩ := ha.fits r b new ls hnew (.sigil hls)
    have hlexemes : (leaves ls .done).lexemes = ls := by rw [Pieces.lexemes_leaves, Pieces.lexemes, List.append_nil]
    rw [← hlexemes] at hq
    rw [Pieces.leaves_eq_append]
    exact ⟨_, _, h.put hS hq (.put hx h.becomes)⟩

/-- A `var()` has its answer in its place. -/
theorem Recast.replaced {opener closer : Lexeme} {bracket : Bracket} {inner : Pieces} {name new : String} {v₀ : Value}
    (ha : Admits S sigil asks answers keeps puts)
    (hm : (Pieces.block opener bracket inner (.some closer) rest).Matched) (hopener : opensVar opener.token = true)
    (hnew : answers ⟨name, String.ofList (Pieces.blockText opener inner (.some closer)), .var⟩ b (.some new))
    (hbecomes : ∀ x, puts ⟨name, String.ofList (Pieces.blockText opener inner (.some closer)), .var⟩ b x →
      Becomes keeps puts b v₀ (x.append w))
    (h : Recast S sigil keeps puts b rest v o rest' w) :
    ∃ p' w', Recast S sigil keeps puts b (.block opener bracket inner (.some closer) rest) v₀ (new ++ o) p' w' := by
  obtain ⟨y, hy⟩ := exists_function hopener
  have hlowered : y.lowered = "var" := by
    rw [hy] at hopener
    simpa [opensVar] using hopener
  have hcloser := (hm.2.2.2.1 closer rfl).1
  obtain rfl : Bracket.round = bracket := by
    have hopens := hm.1
    rw [hy] at hopens
    exact Option.some.inj hopens
  have hlexemes : (Pieces.block opener .round inner (.some closer) .done).lexemes =
      opener :: (inner.lexemes ++ [closer]) := by
    simp [Pieces.lexemes]
  have hraw : Pieces.blockText opener inner (.some closer) = (opener :: (inner.lexemes ++ [closer])).flatMap (·.text) := by
    simp [Pieces.blockText, Pieces.text]
  have hls : ReferenceLexemes sigil
      ⟨name, String.ofList ((opener :: (inner.lexemes ++ [closer])).flatMap (·.text)), .var⟩
      (opener :: (inner.lexemes ++ [closer])) := .var hy hlowered hcloser
  rw [← hraw] at hls
  obtain ⟨q, x, hq, hx⟩ := ha.fits _ b new _ hnew hls
  rw [← hlexemes] at hq
  exact ⟨_, _, h.put hS hq (hbecomes x hx)⟩

omit hS in
/-- A fallback that comes out as it went in is read as it was. -/
theorem Recast.eq_of_verbatim {p p' p'' : Pieces} {ms : List Lexeme} {w' : Value}
    (h : Recast S sigil keeps puts b p v v.verbatim p' w)
    (h' : Recast S sigil (fun _ _ => True) (fun _ _ _ => False) b p v v.verbatim p'' w')
    (hh : Held S (p.lexemes ++ ms)) : w = v := by
  have hsame := Pieces.same_of_text h.matched h'.matched (h.toReshaped.tiled hh) (h'.toReshaped.tiled hh)
    (h.text.trans h'.text.symm)
  rw [h.reads.unique h'.reads hsame]
  exact h'.becomes.eq fun _ _ _ hx => hx

/-- The last word of what a fallback has become is firm, where that of the
fallback is. -/
theorem Recast.isFirm {opener closer : Lexeme} {bracket : Bracket} {front : List Lexeme} {fallback fallback' rest : Pieces}
    {a wa : Value} {i : String} {ms : List Lexeme} (hcloser : closer.token = .closing bracket)
    (hh : Held S ((opener :: front) ++ (fallback.lexemes ++ (closer :: (rest.lexemes ++ ms)))))
    (hfirm : endsFirmly (String.ofList (Pieces.blockText opener (leaves front fallback) (.some closer))) = true)
    (hf : Recast S sigil keeps puts b fallback a i fallback' wa) :
    ∀ l, lastWord fallback'.lexemes = .some l → l.isFirm = true := by
  intro l hl
  rcases hf.ends with hsame | ⟨m, kind, hm, hclosing⟩
  · have htiled : Tiled ((opener :: front) ++ fallback.lexemes ++ [closer]) := by
      have hwhole : Tiled ((opener :: front) ++ fallback.lexemes ++ closer :: (rest.lexemes ++ ms)) := by
        simpa using hh.tiled
      exact hwhole.change_after hcloser trivial
    refine isFirm_of_endsFirmly htiled ?_ (by rw [lastWord_append, ← hsame, hl]; rfl)
    have htext : ((opener :: front) ++ fallback.lexemes ++ [closer]).flatMap (·.text) =
        Pieces.blockText opener (leaves front fallback) (.some closer) := by
      simp [Pieces.blockText, Pieces.text, Pieces.lexemes_leaves]
    rwa [htext]
  · cases hm.symm.trans hl
    obtain ⟨u, hread⟩ := (hf.toReshaped.tiled (hh.of_append hS)).reads (List.mem_append_left _ (mem_of_lastWord hl))
    exact isFirm_closing hclosing hread

/-- A `var()` is written anew around its fallback. -/
theorem Recast.var {opener closer : Lexeme} {bracket : Bracket} {inner fallback fallback' : Pieces} {name : String}
    {a wa : Value} {i : String} {ms : List Lexeme} (ha : Admits S sigil asks answers keeps puts)
    (hm : (Pieces.block opener bracket inner (.some closer) rest).Matched)
    (hh : Held S ((Pieces.block opener bracket inner (.some closer) rest).lexemes ++ ms))
    (hopener : opensVar opener.token = true) (hparts : varParts inner = .ok (name, .some fallback))
    (hname : FitsCustom name.toList)
    (hfirm : endsFirmly (String.ofList (Pieces.blockText opener inner (.some closer))) = true)
    (hkept : answers ⟨name, String.ofList (Pieces.blockText opener inner (.some closer)), .var⟩ b .none)
    (hne : i ≠ a.verbatim) (hf : Recast S sigil keeps puts b fallback a i fallback' wa) (h : Recast S sigil keeps puts b rest v o rest' w) :
    ∃ p' w', Recast S sigil keeps puts b (.block opener bracket inner (.some closer) rest)
      (.guarded ⟨name, String.ofList (Pieces.blockText opener inner (.some closer)), .var⟩ a v)
      (varText name i.trimmedEnd ++ o) p' w' := by
  obtain ⟨⟨front, rfl⟩, hfiller, hhyphens⟩ := varParts_guarded hparts
  obtain ⟨x, hx⟩ := exists_function hopener
  have hlowered : x.lowered = "var" := by
    rw [hx] at hopener
    simpa [opensVar] using hopener
  have hcloser : closer.token = .closing bracket := (hm.2.2.2.1 closer rfl).1
  have hlexemes : (Pieces.block opener bracket (leaves front fallback) (.some closer) rest).lexemes ++ ms =
      (opener :: front) ++ (fallback.lexemes ++ (closer :: (rest.lexemes ++ ms))) := by
    simp [Pieces.lexemes, Pieces.lexemes_leaves]
  rw [hlexemes] at hh
  have hlast := hf.isFirm hS hcloser hh hfirm
  have htiled := hf.toReshaped.tiled (hh.of_append hS)
  obtain ⟨wa', blanks, hwa', hblanks, rfl⟩ := hf.reads.cutSpace fun l hl hspace c hc => by
    obtain ⟨u, hread⟩ := htiled.reads (List.mem_append_left _ hl)
    rw [hspace] at hread
    exact hread.isSpace_of_mem (by simpa using hc)
  have hfixed := (Pieces.begins_cutSpace fallback').afterFiller (hf.begins.afterFiller hfiller)
  have hparen : closer.text = [')'] := by
    obtain ⟨u, hread⟩ := hh.tiled.reads (l := closer) (by simp)
    refine hread.sign ?_
    rw [hcloser]
    obtain ⟨hopens, -⟩ := hm
    rw [hx] at hopens
    cases hopens
    rfl
  have hraw : Pieces.blockText ⟨.function "var", "var(".toList, 0⟩
      (leaves [⟨.ident (String.ofList name.toList), name.toList, 0⟩, ⟨.comma, [','], 0⟩, ⟨.space, [' '], 0⟩]
        fallback'.cutSpace) (.some closer) = (varText name i.trimmedEnd).toList := by
    have hcut := text_cutSpace hf.matched hf.closed htiled hlast
    rw [hf.text] at hcut
    simp [Pieces.blockText, Pieces.text_leaf, hcut, hparen, varText, String.trimmedEnd]
  refine ⟨Pieces.var name.toList fallback'.cutSpace closer rest', .guarded ⟨name, varText name i.trimmedEnd, .var⟩ wa' w,
    .var hS hx hlowered hname hm hfiller hf.toReshaped hlast h.toReshaped, ?_, ?_, ?_, ?_⟩
  · rw [← String.ofList_toList (s := varText name i.trimmedEnd), ← hraw]
    refine .guarded rfl (varParts_named.2 (.inr ⟨[], _, _, List.forall_mem_nil _, ?_, hhyphens, rfl, ?_⟩)) hwa' h.reads
    · rw [String.ofList_toList]
    · exact fallbackOf_some.2 ⟨[], _, [_], List.forall_mem_nil _, rfl, by simp [AllFiller, Token.isFiller], rfl, hfixed⟩
  · rw [Pieces.var, Pieces.text_block, hraw, h.text, String.toList_append]
  · exact congrArg (varText name i.trimmedEnd ++ ·) h.verbatim
  · exact .anew (ha.kept _ _ hkept) hf.becomes hblanks (by rwa [hf.verbatim]) h.becomes

/-! ## The parts of a value -/

theorem Held.of_leaves (ls : List Lexeme) {ms : List Lexeme} (hh : Held S ((leaves ls rest).lexemes ++ ms)) :
    Held S (rest.lexemes ++ ms) := by
  rw [Pieces.lexemes_leaves, List.append_assoc] at hh
  exact hh.of_append hS

section

variable {opener closer : Lexeme} {bracket : Bracket} {inner inner' : Pieces} {a wa : Value} {i : String} {ms : List Lexeme}

/-- Inside a block, and after it. -/
theorem Held.of_block (hh : Held S ((Pieces.block opener bracket inner (.some closer) rest).lexemes ++ ms)) :
    Held S (inner.lexemes ++ (closer :: (rest.lexemes ++ ms))) ∧ Held S (rest.lexemes ++ ms) := by
  have hlexemes : (Pieces.block opener bracket inner (.some closer) rest).lexemes ++ ms =
      [opener] ++ (inner.lexemes ++ ([closer] ++ (rest.lexemes ++ ms))) := by
    simp [Pieces.lexemes]
  rw [hlexemes] at hh
  have hinner := hh.of_append hS
  exact ⟨hinner, (hinner.of_append hS).of_append hS⟩

theorem Recast.leaf {l : Lexeme} (hl : IsText sigil l rest) (hm : (Pieces.leaf l rest).Matched)
    (h : Recast S sigil keeps puts b rest v o rest' w) :
    Recast S sigil keeps puts b (.leaf l rest) (consText (String.ofList l.text) v) (String.ofList l.text ++ o) (.leaf l rest')
      (consText (String.ofList l.text) w) := by
  refine ⟨h.toReshaped.leaf hS hm.1, .text (hl.begins h.begins) h.reads, ?_, ?_, .text h.becomes⟩
  · rw [Pieces.text_leaf, h.text, String.toList_append, String.toList_ofList]
  · rw [verbatim_consText, h.verbatim]

theorem Recast.interpolation {l : Lexeme} {cs : List Lexeme} (hl : l.token = .delim '#')
    (hm : (Pieces.leaf l (leaves cs (.block opener .curly inner (.some closer) rest))).Matched)
    (hh : Held S ((Pieces.leaf l (leaves cs (.block opener .curly inner (.some closer) rest))).lexemes ++ ms))
    (ha : Recast S sigil keeps puts true inner a i inner' wa) (h : Recast S sigil keeps puts b rest v o rest' w) :
    Recast S sigil keeps puts b (.leaf l (leaves cs (.block opener .curly inner (.some closer) rest))) (.interpolation a v)
      (interpolated i ++ o) (.leaf l (.block opener .curly inner' (.some closer) rest')) (.interpolation wa w) := by
  have hblock := Held.of_leaves hS (l :: cs) hh
  refine ⟨.interpolation hS hl hm ha.toReshaped h.toReshaped, .interpolated hl ha.reads h.reads, ?_, ?_,
    .interpolation ha.becomes h.becomes⟩
  · have hhash : l.text = ['#'] := hh.tiled.1.sign (by rw [hl]; rfl)
    have hbrace : opener.text = ['\x7b'] := hblock.tiled.1.sign (by rw [Sheet.opens?_curly hm.2.of_leaves.1]; rfl)
    have hcloser := (Held.of_block hS hblock).1.tiled.text_closing (hm.2.of_leaves.2.2.2.1 closer rfl).1
    simp [Pieces.text_leaf, Pieces.text_block, Pieces.blockText, hhash, hbrace, hcloser, ha.text, h.text, interpolated,
      Bracket.closer]
  · rw [Value.verbatim, ha.verbatim, h.verbatim]

theorem Recast.block (hopens : opensVar opener.token = false)
    (hm : (Pieces.block opener bracket inner (.some closer) rest).Matched)
    (hh : Held S ((Pieces.block opener bracket inner (.some closer) rest).lexemes ++ ms))
    (ha : Recast S sigil keeps puts b inner a i inner' wa) (h : Recast S sigil keeps puts b rest v o rest' w) :
    Recast S sigil keeps puts b (.block opener bracket inner (.some closer) rest)
      (consText (String.ofList opener.text) (a.append (consText bracket.closer v)))
      (String.ofList opener.text ++ (i ++ (bracket.closer ++ o))) (.block opener bracket inner' (.some closer) rest')
      (consText (String.ofList opener.text) (wa.append (consText bracket.closer w))) := by
  refine ⟨.block hS hm ha.toReshaped h.toReshaped, .block hopens ha.reads h.reads, ?_, ?_, ?_⟩
  · have hcloser := (Held.of_block hS hh).1.tiled.text_closing (hm.2.2.2.1 closer rfl).1
    simp [Pieces.text_block, Pieces.blockText, hcloser, ha.text, h.text]
  · rw [verbatim_consText, verbatim_append, verbatim_consText, ha.verbatim, h.verbatim]
  · exact .text (.append ha.becomes (.text h.becomes))

/-- A `var()` that stays as it is written. -/
theorem Recast.stays {v' w' : Value} (hm : (Pieces.block opener bracket inner (.some closer) rest).Matched)
    (hc : inner.Closed) (h : Recast S sigil keeps puts b rest v o rest' w)
    (hreads : ReadsAs sigil (.block opener bracket inner (.some closer) rest') w')
    (hverbatim : w'.verbatim = String.ofList (Pieces.blockText opener inner (.some closer)) ++ w.verbatim)
    (hbecomes : Becomes keeps puts b v' w') :
    Recast S sigil keeps puts b (.block opener bracket inner (.some closer) rest) v'
      (String.ofList (Pieces.blockText opener inner (.some closer)) ++ o)
      (.block opener bracket inner (.some closer) rest') w' := by
  refine ⟨.block hS hm (.refl hS hm.2.2.1 hc) h.toReshaped, hreads, ?_, ?_, hbecomes⟩
  · rw [Pieces.text_block, h.text, String.toList_append, String.toList_ofList]
  · rw [hverbatim, h.verbatim]

end

/-- What is written is read as the value with the answers in the place of the
references that they replace: an induction on how the value was read, which has
the fallback of a `var()` that stays read again without any answer. -/
theorem exists_recast {p : Pieces} (h : ReadsAs sigil p v) {out : String} {ms : List Lexeme}
    (ha : Admits S sigil asks answers keeps puts) (hm : p.Matched) (hc : p.Closed) (hh : Held S (p.lexemes ++ ms))
    (hn : Neat asks b v) (hw : Writes answers b v out) : ∃ p' w, Recast S sigil keeps puts b p v out p' w := by
  induction h generalizing answers keeps puts b ms out with
  | done =>
    cases hw
    exact ⟨.done, .done, .refl hS hm hc, .done, rfl, rfl, .done⟩
  | @text l rest v hl _ ih =>
    obtain ⟨o, rfl, ho⟩ := hw.of_consText
    obtain ⟨rest', w, h⟩ := ih ha hm.2 hc (hh.tail hS) (neat_consText.1 hn) ho
    exact ⟨_, _, h.leaf hS hl hm⟩
  | @interpolation l cs opener inner closer rest a v hl hcs _ _ iha ih =>
    obtain ⟨closer, rfl⟩ := Option.ne_none_iff_exists'.1 hc.of_leaves.2.1
    obtain ⟨hinner, hrest⟩ := Held.of_block hS (Held.of_leaves hS (l :: cs) hh)
    have hblock := hm.2.of_leaves
    cases hw with
    | interpolation hi ho =>
      obtain ⟨inner', wa, hra⟩ := iha ha hblock.2.2.1 hc.of_leaves.1 hinner hn.1 hi
      obtain ⟨rest', w, hr⟩ := ih ha hblock.2.2.2.2.2 hc.of_leaves.2.2 hrest hn.2 ho
      exact ⟨_, _, hra.interpolation hS hl hm hh hr⟩
  | @atKeyword l name rest v hl hs _ ih =>
    cases hw with
    | reference hr ho =>
      obtain ⟨rest', w, h⟩ := ih ha hm.2 hc (hh.tail hS) hn ho
      have hone : (leaves [l] rest).Matched := hm
      exact h.reference hS ha hone (.atKeyword hl hs) hr
  | @sigil l c cs m name rest v hl hc' hs hcs hm' _ ih =>
    have hleaves : Pieces.leaf l (leaves cs (.leaf m rest)) = leaves (l :: (cs ++ [m])) rest := by simp [leaves]
    rw [hleaves] at hm hc hh ⊢
    cases hw with
    | reference hr ho =>
      obtain ⟨rest', w, h⟩ := ih ha hm.of_leaves hc.of_leaves (Held.of_leaves hS _ hh) hn ho
      exact h.reference hS ha hm (.sigil hl hc' hs hcs hm') hr
  | @var opener bracket inner closer rest name v ho hparts _ ih =>
    obtain ⟨closer, rfl⟩ := Option.ne_none_iff_exists'.1 hc.2.1
    cases hw with
    | @reference _ _ _ new o hr ho' =>
      obtain ⟨rest', w, h⟩ := ih ha hm.2.2.2.2.2 hc.2.2 (Held.of_block hS hh).2 hn ho'
      cases new with
      | some new => exact h.replaced hS ha hm ho hr fun x hx => .put hx h.becomes
      | none =>
        exact ⟨_, _, h.stays hS hm hc.1 (.var ho hparts h.reads) rfl (.kept (ha.kept _ _ hr) h.becomes)⟩
  | @guarded opener bracket inner closer rest name fallback a v ho hparts hreads _ iha ih =>
    obtain ⟨closer, rfl⟩ := Option.ne_none_iff_exists'.1 hc.2.1
    obtain ⟨⟨front, rfl⟩, -, -⟩ := varParts_guarded hparts
    obtain ⟨hinner, hrest⟩ := Held.of_block hS hh
    have hfallback := Held.of_leaves hS _ hinner
    have hmf := hm.2.2.1.of_leaves
    have hcf := hc.1.of_leaves
    cases hw with
    | replaced hr ho' =>
      obtain ⟨rest', w, h⟩ := ih ha hm.2.2.2.2.2 hc.2.2 hrest hn.2.2 ho'
      obtain ⟨p', w', h'⟩ := h.replaced hS ha hm ho hr fun x hx => .putGuarded rfl hx h.becomes
      exact ⟨p', w', h'⟩
    | kept hr hwa ho' =>
      obtain ⟨rest', w, h⟩ := ih ha hm.2.2.2.2.2 hc.2.2 hrest hn.2.2 ho'
      obtain ⟨_, _, hra⟩ := iha ha hmf hcf hfallback hn.2.1 hwa
      obtain ⟨_, _, hra'⟩ := iha (admits_none S sigil asks) hmf hcf hfallback hn.2.1 (writes_verbatim b a)
      have hsame := hra.becomes
      rw [hra.eq_of_verbatim hra' hfallback] at hsame
      exact ⟨_, _, h.stays hS hm hc.1 (.guarded ho hparts hreads h.reads) rfl
        (.stays (ha.kept _ _ hr) hsame h.becomes)⟩
    | anew hr hwa hne ho' =>
      obtain ⟨rest', w, h⟩ := ih ha hm.2.2.2.2.2 hc.2.2 hrest hn.2.2 ho'
      obtain ⟨fallback', wa, hra⟩ := iha ha hmf hcf hfallback hn.2.1 hwa
      have hasks : (a.occurrences b).any asks = true := by
        by_contra hnone
        rw [Bool.not_eq_true] at hnone
        exact hne (hwa.eq_verbatim ha.asked hnone)
      obtain ⟨hname, hfirm⟩ := hn.1 hasks
      exact hra.var hS ha hm hh ho hparts hname hfirm hr hne h
  | @block opener bracket inner closer rest a v hopens _ _ iha ih =>
    obtain ⟨closer, rfl⟩ := Option.ne_none_iff_exists'.1 hc.2.1
    obtain ⟨hinner, hrest⟩ := Held.of_block hS hh
    obtain ⟨_, rfl, hinside⟩ := hw.of_consText
    obtain ⟨i, _, rfl, hwa, hafter⟩ := hinside.of_append
    obtain ⟨o, rfl, ho⟩ := hafter.of_consText
    obtain ⟨hna, hnv⟩ := neat_append.1 (neat_consText.1 hn)
    obtain ⟨inner', wa, hra⟩ := iha ha hm.2.2.1 hc.1 hinner hna hwa
    obtain ⟨rest', w, hr⟩ := ih ha hm.2.2.2.2.2 hc.2.2 hrest (neat_consText.1 hnv) ho
    exact ⟨_, _, hra.block hS hopens hm hh hr⟩

/-- What is written of a value that is closed and neat is a value again, which
is written as it is, and is what the first becomes with the answers in it. -/
theorem becomes_of_writes {text out : String} (h : Value.read sigil text = .ok v) (hc : (Pieces.ofText text.toList).Closed)
    (hs : S (lexemes text.toList)) (ha : Admits S sigil asks answers keeps puts) (hn : Neat asks b v)
    (hw : Writes answers b v out) :
    ∃ w, Value.read sigil out = .ok w ∧ w.verbatim = out ∧ Becomes keeps puts b v w := by
  have hlexemes : (Pieces.ofText text.toList).lexemes = lexemes text.toList := Pieces.lexemes_ofLexemes _
  have hh : Held S ((Pieces.ofText text.toList).lexemes ++ []) := by
    rw [List.append_nil, hlexemes]
    exact ⟨hs, tiled_lexemes _⟩
  obtain ⟨p', w, hrecast⟩ := exists_recast hS (readsAs_iff.1 h) ha (Pieces.matched_ofLexemes _) hc hh hn hw
  have htiled := hrecast.toReshaped.tiled hh
  rw [List.append_nil] at htiled
  have hsame : Pieces.Same p' (.ofText out.toList) := by
    rw [← hrecast.text]
    exact (Pieces.ofText_text hrecast.matched htiled).symm
  exact ⟨w, readsAs_iff.2 (hrecast.reads.same hsame), hrecast.verbatim, hrecast.becomes⟩

/-- Where only references by a sigil are replaced, it has the references of the
first, with those of the answers in the place of some. -/
theorem read_of_writes {A : Occurrence → List Occurrence → Prop} {text out : String} (h : Value.read sigil text = .ok v)
    (hc : (Pieces.ofText text.toList).Closed) (hs : S (lexemes text.toList)) (ha : Answers S sigil asks answers A)
    (hn : Neat asks b v) (hw : Writes answers b v out) :
    ∃ w, Value.read sigil out = .ok w ∧ w.verbatim = out ∧ Spliced A (v.occurrences b) (w.occurrences b) := by
  obtain ⟨w, hw', hverbatim, hbecomes⟩ := becomes_of_writes hS h hc hs ha.admits hn hw
  exact ⟨w, hw', hverbatim, hbecomes.spliced⟩

end

end Value

end ThemeVars
