/-
Lexemes with others in the place of some of them. `Seen`: what stands before
is read as it was. `YieldsTo`: where some lexemes stood, others are read, and are
seen so; lexemes that yield piece by piece yield as a whole (`YieldsTo.append`).
The rules for a reference: `Reads.before_name`, `Reads.before_hash`, `yieldsTo_var`.
-/
import ThemeVars.Proofs.Token.Cutting
import ThemeVars.Proofs.Token.Enclosed
import ThemeVars.Proofs.Value.Sealing

namespace ThemeVars

open Text

/-! ## What a reference looks like -/

section

variable {x u v : List Char} {c : Char} {t : Token}

theorem Reads.isQuote_delim (h : Reads [c] u (.delim c)) : isQuote c = false := by
  by_contra hq
  obtain ⟨d, cs, hd, h⟩ := h
  cases hd
  have hword := isWord_stringAt c u
  have htoken : tokenAt c u = ((stringAt c u).1, 1 + (stringAt c u).2) := by
    rw [Bool.not_eq_false, isQuote, Bool.or_eq_true, beq_iff_eq, beq_iff_eq] at hq
    rcases hq with rfl | rfl <;> simp [tokenAt, isSpace, isNewline]
  rw [List.nil_append, htoken] at h
  rw [(Prod.mk.inj h).1] at hword
  cases hword

theorem Reads.isSpace_delim (h : Reads [c] u (.delim c)) : isSpace c = false := by
  have hshape := h.shape
  cases hshape with
  | word _ hw => cases hw
  | hash _ hs => cases hs
  | sign hc _ => exact hc

/-- From further away, a delimiter looks like a name. -/
theorem Reads.free_delim (h : Reads [c] u (.delim c)) (hu : u ≠ []) :
    (outlook (c :: u)).Free ∧ (outlook (c :: u)).dashes = false := by
  have hkeeps : (outlook u).KeepsDelim c := h.settled hu
  have hnumber := hkeeps.number
  simp only [Outlook.step, Bool.or_eq_false_iff] at hnumber
  obtain ⟨⟨hdigit, hpoint⟩, hsigned⟩ := hnumber
  refine ⟨⟨hdigit, hpoint, ?_, ?_⟩, ?_⟩
  · simp only [outlook_cons, Outlook.step]
    rw [Bool.and_or_distrib_left, Bool.or_eq_false_iff] at hsigned
    exact hsigned.1
  · simp [Outlook.step, h.isSpace_delim, h.isQuote_delim]
  · by_contra hdashes
    simp only [outlook_cons, Outlook.step, Bool.not_eq_false, Bool.and_eq_true, beq_iff_eq] at hdashes
    obtain ⟨rfl, hhead⟩ := hdashes
    have hname := hkeeps.name
    simp [Outlook.step, hhead] at hname

theorem free_atSign (u : List Char) : (outlook ('@' :: u)).Free ∧ (outlook ('@' :: u)).dashes = false :=
  ⟨⟨rfl, rfl, rfl, rfl⟩, rfl⟩

/-- A function whose name begins with no hyphen does not begin with two. -/
theorem Reads.dashes_function {n : String} (h : Reads x u (.function n)) (hn : n.lowered.toList.head? ≠ .some '-') :
    startsName (x ++ u) = true ∧ (outlook (x ++ u)).dashes = false := by
  obtain ⟨hstarts, htoken⟩ := h.nameTokenAt rfl
  have hname : n = unescape false (nameAt (x ++ u)) := by
    rcases nameTokenAt_cases (x ++ u) with h | ⟨-, h⟩ | h
    · cases h.symm.trans htoken
    · exact (Token.function.inj (Prod.mk.inj (h.symm.trans htoken)).1).symm
    · rw [htoken] at h
      cases h
  refine ⟨hstarts, ?_⟩
  by_contra hdashes
  rw [Bool.not_eq_false, outlook_dashes] at hdashes
  obtain ⟨s, hs⟩ := hdashes
  refine hn ?_
  rw [hname]
  exact nameAt_hyphen (by rw [← hs]; rfl)

/-! ## A hash in the place of a dollar sign -/

theorem outlook_dollar (u : List Char) : outlook ('$' :: u) = { head := .some '$' } := rfl

theorem outlook_hash (u : List Char) : outlook ('#' :: u) = { head := .some '#' } := rfl

theorem Outlook.EndsName.hash (h : (outlook ('$' :: u)).EndsName x) : (outlook ('#' :: v)).EndsName x := by
  intro d hd
  cases hd
  have hfresh := (h '$' rfl).1
  refine ⟨?_, rfl⟩
  generalize EscapeState.plain.after x = st at hfresh ⊢
  cases st with
  | plain => rfl
  | slash => cases hfresh
  | hex => simp [EscapeState.isFresh, isHexDigit, isSpace, isNewline]
  | carriage => rfl

theorem Outlook.KeepsName.hash (h : (outlook ('$' :: u)).KeepsName x) : (outlook ('#' :: v)).KeepsName x :=
  ⟨fun hx => absurd (h.1 hx) (by simp), h.2.hash⟩

theorem Outlook.step_hash (c : Char) (u v : List Char) : (outlook ('$' :: u)).step c = (outlook ('#' :: v)).step c := by
  rw [outlook_dollar, outlook_hash]
  simp [Outlook.step, isNameStart, isNewline]

theorem outlook_append_hash (hx : x ≠ []) (u v : List Char) : outlook (x ++ '$' :: u) = outlook (x ++ '#' :: v) := by
  obtain ⟨y, c, rfl⟩ : ∃ y c, x = y ++ [c] := ⟨x.dropLast, x.getLast hx, (List.dropLast_concat_getLast hx).symm⟩
  rw [outlook_append, outlook_append, Outlook.through_append, Outlook.through_append]
  exact congrArg _ (Outlook.step_hash c u v)

/-- A token before a dollar sign is read before a hash too. -/
theorem Reads.before_hash (h : Reads x ('$' :: u) t) (v : List Char) :
    Reads x ('#' :: v) t ∧ outlook (x ++ '$' :: u) = outlook (x ++ '#' :: v) := by
  refine ⟨?_, outlook_append_hash h.ne_nil u v⟩
  have hsettled := h.settled (List.cons_ne_nil _ _)
  refine h.change (List.cons_ne_nil _ _) ?_
  cases t with
  | space => rfl
  | ident => exact ⟨hsettled.1.hash, by simp, by simp⟩
  | function => exact fun hurl => absurd (hsettled hurl) Bool.false_ne_true
  | atKeyword => exact Outlook.KeepsName.hash hsettled
  | idHash => exact Outlook.KeepsName.hash hsettled
  | hash => exact ⟨by simp, hsettled.2.hash⟩
  | badString =>
    obtain ⟨c, hc, hn, -⟩ := hsettled
    cases hc
    cases hn
  | number n => exact ⟨⟨rfl, fun _ _ => rfl, fun _ => rfl⟩, by simp, rfl⟩
  | dimension n =>
    refine ⟨hsettled.1.hash, fun hn => ?_⟩
    by_cases hunit : x.drop n.text.length = []
    · rw [hunit]
      rfl
    · have hthrough := outlook_append_hash hunit u v
      rw [outlook_append, outlook_append] at hthrough
      rw [← hthrough]
      exact hsettled.2 hn
  | delim d =>
    have hkept : (outlook ('$' :: u)).KeepsDelim d := hsettled
    have hstep := Outlook.step_hash d u v
    exact ⟨hstep ▸ hkept.number, hstep ▸ hkept.name, fun _ => rfl, fun _ => ⟨rfl, rfl⟩, fun _ => rfl, fun _ => by simp,
      fun _ => rfl, fun _ => by simp⟩
  | _ => trivial

end

/-! ## Tokens that are read before anything -/

section

variable {u : List Char}

theorem reads_comma (u : List Char) : Reads [','] u .comma := ⟨',', [], rfl, rfl⟩

theorem reads_curly (u : List Char) : Reads ['\x7b'] u (.opening .curly) := ⟨'\x7b', [], rfl, rfl⟩

theorem reads_spaces {w : List Char} (hw : ∀ c ∈ w, isSpace c = true) (hne : w ≠ [])
    (hu : u.head?.any isSpace = false) : Reads w u .space := by
  obtain ⟨c, w, rfl⟩ := List.exists_cons_of_ne_nil hne
  refine ⟨c, w, rfl, ?_⟩
  have htake := (takeWhile_spaces (fun d hd => hw d (List.mem_cons_of_mem c hd)) hu).1
  simp [tokenAt, hw c List.mem_cons_self, htake, Nat.add_comm]

/-- A hash before a brace is no part of a name. -/
theorem reads_hash (u : List Char) : Reads ['#'] ('\x7b' :: u) (.delim '#') := ⟨'#', [], rfl, rfl⟩

theorem reads_var (u : List Char) : Reads "var(".toList u (.function "var") := by
  have hname : nameAt ("var".toList ++ '(' :: u) = "var".toList :=
    nameAt_plain (by simp [IsPlain]) (by decide) rfl (by decide) _
  have htoken := nameTokenAt_paren hname
  rw [unescape_plain (by simp [IsPlain]), if_neg (by decide)] at htoken
  exact reads_name rfl (by simpa using htoken) (by simp) (by simp)

end

/-! ## Others in the place of some -/

section

-- What is known of the lexemes that are replaced and of all after them.
variable (S : List Lexeme → Prop)

/-- The lexemes are known, and are those of a text. -/
structure Held (ls : List Lexeme) : Prop where
  known : S ls
  tiled : Tiled ls

/-- A lexeme before the ones is read before the others too, and what stands
before it sees no difference. -/
def Seen (us vs : List Lexeme) : Prop :=
  ∀ l, S (l :: us) → Reads l.text (us.flatMap (·.text)) l.token →
    Reads l.text (vs.flatMap (·.text)) l.token ∧
      outlook (l.text ++ us.flatMap (·.text)) = outlook (l.text ++ vs.flatMap (·.text))

/-- In the place of the ones the others are read, and seen so. -/
def YieldsTo (ls ls' : List Lexeme) : Prop :=
  ∀ ms ms', Held S (ls ++ ms) → Tiled ms' → Seen S ms ms' → Tiled (ls' ++ ms') ∧ Seen S (ls ++ ms) (ls' ++ ms')

variable {S}

theorem seen_of_seenAlike {us vs : List Lexeme} (h : SeenAlike (us.flatMap (·.text)) (vs.flatMap (·.text))) :
    Seen S us vs := fun _ _ hl => h.reads hl

theorem seen_of_outlook {us vs : List Lexeme} (h : outlook (us.flatMap (·.text)) = outlook (vs.flatMap (·.text))) :
    Seen S us vs := seen_of_seenAlike (.inl h)

theorem Seen.refl (us : List Lexeme) : Seen S us us := seen_of_outlook rfl

variable (hS : ∀ {l ls}, S (l :: ls) → S ls)

include hS

theorem Held.tail {l : Lexeme} {ls : List Lexeme} (h : Held S (l :: ls)) : Held S ls := ⟨hS h.known, h.tiled.2⟩

theorem Held.of_append {ls ms : List Lexeme} (h : Held S (ls ++ ms)) : Held S ms := by
  induction ls with
  | nil => exact h
  | cons l ls ih => exact ih (h.tail hS)

/-- Lexemes stay before what is seen like what stood after them. -/
theorem YieldsTo.refl (ls : List Lexeme) : YieldsTo S ls ls := by
  intro ms ms' hh hms hseen
  induction ls with
  | nil => exact ⟨hms, hseen⟩
  | cons l ls ih =>
    obtain ⟨htiled, hseen'⟩ := ih (hh.tail hS)
    obtain ⟨hread, hsame⟩ := hseen' l hh.known hh.tiled.1
    exact ⟨⟨hread, htiled⟩, seen_of_outlook hsame⟩

theorem YieldsTo.append {a a' b b' : List Lexeme} (ha : YieldsTo S a a') (hb : YieldsTo S b b') :
    YieldsTo S (a ++ b) (a' ++ b') := by
  intro ms ms' hh hms hseen
  rw [List.append_assoc] at hh ⊢
  rw [List.append_assoc]
  obtain ⟨htiled, hseen'⟩ := hb ms ms' (hh.of_append hS) hms hseen
  exact ha _ _ hh htiled hseen'

theorem YieldsTo.cons {l : Lexeme} {b b' : List Lexeme} (hb : YieldsTo S b b') : YieldsTo S (l :: b) (l :: b') :=
  (YieldsTo.refl hS [l]).append hS hb

omit hS

theorem Tiled.text_closing {ls ms : List Lexeme} {l : Lexeme} {b : Bracket} (h : Tiled (ls ++ l :: ms))
    (hl : l.token = .closing b) : l.text = b.closer.toList := by
  have hread := h.of_append.1
  rw [hl] at hread
  exact hread.spelled.closing

/-- Behind a closing bracket nothing is seen. -/
theorem Tiled.change_after {ls ms ms' : List Lexeme} {l : Lexeme} {b : Bracket} (h : Tiled (ls ++ l :: ms))
    (hl : l.token = .closing b) (hms : Tiled ms') : Tiled (ls ++ l :: ms') := by
  have htext := h.text_closing hl
  have htiled : Tiled (l :: ms') := by
    refine ⟨?_, hms⟩
    rw [hl, htext]
    exact reads_closing b _
  refine (tiled_append h htiled (.inl ?_)).1
  simp only [List.flatMap_cons, htext]
  cases b <;> rfl

/-- Comments between a hash and a brace can be left out. -/
theorem yieldsTo_hash {l opener : Lexeme} (hl : l.token = .delim '#') (hopener : opener.token = .opening .curly)
    (cs : List Lexeme) : YieldsTo S (l :: (cs ++ [opener])) [l, opener] := by
  intro ms ms' hh hms _
  have ht := hh.tiled
  have hhash : l.text = ['#'] := ht.1.sign (by rw [hl]; rfl)
  rw [List.cons_append, List.append_assoc] at ht
  have hbrace : opener.text = ['\x7b'] := ht.2.of_append.1.sign (by rw [hopener]; rfl)
  refine ⟨⟨?_, ?_, hms⟩, seen_of_outlook ?_⟩
  · rw [hhash, hl]
    change Reads _ (opener.text ++ _) _
    rw [hbrace]
    exact reads_hash _
  · rw [hbrace, hopener]
    exact reads_curly _
  · simp only [List.cons_append, List.flatMap_cons, hhash]
    rfl

end

/-! ## A reference written anew -/

theorem Reads.isSpace_head {x u : List Char} {t : Token} (h : Reads x u t) (ht : t ≠ .space) :
    x.head?.any isSpace = false := by
  cases h.shape with
  | space => exact absurd rfl ht
  | word hc _ => exact hc
  | hash => rfl
  | atKeyword => rfl
  | comment => rfl
  | sign hc _ => exact hc

/-- The name of a custom property, written without escapes. -/
structure FitsCustom (name : List Char) : Prop where
  plain : IsPlain name
  whole : nameAt name = name
  hyphens : ['-', '-'] <+: name

instance (name : List Char) : Decidable (FitsCustom name) :=
  decidable_of_iff (IsPlain name ∧ nameAt name = name ∧ ['-', '-'] <+: name)
    ⟨fun h => ⟨h.1, h.2.1, h.2.2⟩, fun h => ⟨h.plain, h.whole, h.hyphens⟩⟩

/-- Such a name before what follows it in a reference. -/
theorem FitsCustom.reads {name : List Char} (h : FitsCustom name) {c : Char} (hc : c = ')' ∨ c = ',') (rest : List Char) :
    Reads name (c :: rest) (.ident (String.ofList name)) := by
  obtain ⟨name, rfl⟩ := h.hyphens
  exact reads_custom h.plain h.whole hc rest

/-- The lexemes of a reference with a fallback, as it is written anew. -/
def varLexemes (name : List Char) (fallback : List Lexeme) (closer : Lexeme) : List Lexeme :=
  ⟨.function "var", "var(".toList, 0⟩ :: ⟨.ident (String.ofList name), name, 0⟩ :: ⟨.comma, [','], 0⟩ ::
    ⟨.space, [' '], 0⟩ :: (fallback ++ [closer])

/-- In the place of a reference with a fallback, it can be written anew around
what follows the fallback, the space at the end of which is cut off. -/
theorem yieldsTo_var {S : List Lexeme → Prop} (hS : ∀ {l ls}, S (l :: ls) → S ls) {opener closer : Lexeme} {x : String}
    {name : List Char} {front fallback core spaces : List Lexeme} (hopener : opener.token = .function x)
    (hx : x.lowered = "var") (hname : FitsCustom name) (hcloser : closer.token = .closing .round)
    (hyields : YieldsTo S fallback (core ++ spaces)) (hspaces : ∀ s ∈ spaces, s.token = .space)
    (hfirst : ∀ l, core.head? = .some l → l.token ≠ .space) (hlast : ∀ l, core.getLast? = .some l → l.isFirm = true) :
    YieldsTo S (opener :: (front ++ fallback ++ [closer])) (varLexemes name core closer) := by
  intro ms ms' hh hms hseen
  have hlexemes : opener :: (front ++ fallback ++ [closer]) ++ ms =
      (opener :: front) ++ (fallback ++ ([closer] ++ ms)) := by simp
  rw [hlexemes] at hh
  -- the fallback before the parenthesis that closes the reference
  obtain ⟨hclosed, hseen'⟩ := YieldsTo.refl hS [closer] ms ms' ((hh.of_append hS).of_append hS) hms hseen
  obtain ⟨hfallback, -⟩ := hyields _ _ (hh.of_append hS) hclosed hseen'
  have hparen : closer.text = [')'] := hclosed.1.sign (by rw [hcloser]; rfl)
  have htext : ([closer] ++ ms').flatMap (·.text) = ')' :: ms'.flatMap (·.text) := by
    rw [List.flatMap_append, List.flatMap_singleton, hparen]
    rfl
  rw [List.append_assoc] at hfallback
  have hcore := hfallback.withoutSpaces hspaces htext hlast
  have hspace : ((core ++ ([closer] ++ ms')).flatMap (·.text)).head?.any isSpace = false := by
    cases core with
    | nil =>
      rw [List.nil_append, htext]
      rfl
    | cons l core =>
      have hhead := hcore.1.isSpace_head (hfirst l rfl)
      obtain ⟨c, cs, hc⟩ := List.exists_cons_of_ne_nil hcore.1.ne_nil
      rw [hc] at hhead
      rw [List.cons_append, List.flatMap_cons, hc]
      exact hhead
  have hanew : Tiled (varLexemes name core closer ++ ms') := by
    rw [varLexemes, List.cons_append, List.cons_append, List.cons_append, List.cons_append, List.append_assoc]
    exact ⟨reads_var _, hname.reads (.inr rfl) _, reads_comma _, reads_spaces (by simp [isSpace]) (by simp) hspace, hcore⟩
  refine ⟨hanew, seen_of_seenAlike (.inr ?_)⟩
  have hread : Reads opener.text _ (.function x) := hopener ▸ hh.tiled.1
  obtain ⟨hstarts, hdashes⟩ := hread.dashes_function (by rw [hx]; decide)
  rw [hlexemes]
  exact ⟨hstarts, rfl, hdashes⟩

end ThemeVars
