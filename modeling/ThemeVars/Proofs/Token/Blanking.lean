/-
Space in the place of a slash. `Outlook.Blanked`: what is seen of the one and of
the other. `Reads.before_blank`: a token before the slash is read before the space
too, unless its name ends in an escape, which takes a space along
(`Reads.takes_space`). `Tiled.blank`: so it is with all lexemes before the slash.
-/
import Mathlib.Data.List.Induction
import ThemeVars.Proofs.Token.Inserting
import ThemeVars.Proofs.Token.Levels

namespace ThemeVars

open Text

/-! ## What is seen of a space -/

theorem outlook_slash (u : List Char) : outlook ('/' :: u) = { head := .some '/' } := rfl

theorem outlook_space {c : Char} (hc : isSpace c = true) (u : List Char) :
    outlook (c :: u) = { head := .some c, quote := (outlook u).quote } := by
  rw [isSpace_iff] at hc
  rcases hc with rfl | rfl | rfl | rfl | rfl <;> rfl

namespace Outlook

/-- A space is seen where the same space or a slash was, and perhaps a quote
behind it. -/
inductive Blanked : Outlook → Outlook → Prop
  | space {c : Char} (hc : isSpace c = true) (quote : Bool) :
      Blanked { head := .some c } { head := .some c, quote := quote }
  | slash (quote : Bool) : Blanked { head := .some '/' } { head := .some ' ', quote := quote }

variable {o o' : Outlook}

theorem Blanked.exists_space (h : Blanked o o') : ∃ c q, isSpace c = true ∧ o' = { head := .some c, quote := q } := by
  cases h with
  | space hc q => exact ⟨_, q, hc, rfl⟩
  | slash q => exact ⟨' ', q, rfl, rfl⟩

theorem Blanked.quote (h : Blanked o o') : o.quote = false := by
  cases h <;> rfl

theorem Blanked.newline (h : Blanked o o') {c : Char} (hc : o.head = .some c) (hn : isNewline c = true) :
    o'.head = .some c := by
  cases h with
  | space => exact hc
  | slash =>
    cases hc
    cases hn

theorem Blanked.step (h : Blanked o o') {c : Char} (hc : isSpace c = false) : o.step c = o'.step c := by
  cases h with
  | space => simp [Outlook.step, hc]
  | slash => simp [Outlook.step, hc, isNameStart, isNewline]

theorem Blanked.step_space (h : Blanked o o') {c : Char} (hc : isSpace c = true) : Blanked (o.step c) (o'.step c) := by
  obtain ⟨d, q, hd, rfl⟩ := h.exists_space
  have hq := h.quote
  have hstep (o : Outlook) : o.step c = { head := .some c, quote := o.quote } := by
    rw [isSpace_iff] at hc
    rcases hc with rfl | rfl | rfl | rfl | rfl <;> rfl
  rw [hstep, hstep, hq]
  exact .space hc q

/-- No difference is seen through what is not all space. -/
theorem Blanked.through (h : Blanked o o') {x : List Char} (hx : ∃ c ∈ x, isSpace c = false) :
    o.through x = o'.through x := by
  induction x using List.reverseRecOn generalizing o o' with
  | nil => simp at hx
  | append_singleton x c ih =>
    rw [through_append, through_append]
    cases hc : isSpace c with
    | false => exact congrArg _ (h.step hc)
    | true =>
      obtain ⟨d, hd, hs⟩ := hx
      refine ih (h.step_space hc) ⟨d, ?_, hs⟩
      rcases List.mem_append.1 hd with hd | hd
      · exact hd
      · rw [List.mem_singleton.1 hd, hc] at hs
        cases hs

theorem Blanked.through_exponent (h : Blanked o o') {x : List Char} (hx : (o.through x).exponent = false) :
    (o'.through x).exponent = false := by
  by_cases hs : ∃ c ∈ x, isSpace c = false
  · rwa [← h.through hs]
  · obtain ⟨d, q, -, rfl⟩ := h.exists_space
    cases x with
    | nil => rfl
    | cons c x =>
      have hc : isSpace c = true := by
        by_contra hc
        exact hs ⟨c, List.mem_cons_self, by simpa using hc⟩
      rw [isSpace_iff] at hc
      rcases hc with rfl | rfl | rfl | rfl | rfl <;> rfl

end Outlook

/-- Two spaces are seen where a slash was. -/
theorem outlook_blanked (u w : List Char) : (outlook ('/' :: u)).Blanked (outlook (' ' :: ' ' :: w)) := by
  rw [outlook_slash, outlook_space rfl]
  exact .slash _

/-! ## Tokens before the space -/

/-- The name in the text of a token. -/
def Token.nameIn (x : List Char) : Token → List Char
  | .ident _ => x
  | .atKeyword _ => x.tail
  | .idHash _ => x.tail
  | .hash _ => x.tail
  | .dimension n _ => x.drop n.text.length
  | _ => []

theorem Token.nameIn_isSuffix (x : List Char) (t : Token) : t.nameIn x <:+ x := by
  cases t <;> first | exact List.suffix_rfl | exact List.tail_suffix x | exact List.drop_suffix _ x | exact List.nil_suffix

section

variable {x u v : List Char} {t : Token}

/-- A token before a space or slash is read before a space in the place of it, if
the space is no part of its name. -/
theorem Reads.before_blank (h : Reads x u t) (hu : u ≠ []) (ht : t ≠ .space) (ho : (outlook u).Blanked (outlook v))
    (hfresh : ∀ c, (outlook v).head = .some c → (EscapeState.plain.after (t.nameIn x)).isFresh c = true) :
    Reads x v t := by
  have hsettled := h.settled hu
  refine h.change hu ?_
  generalize outlook u = o at *
  obtain ⟨c, q, hc, hov⟩ := ho.exists_space
  rw [hov] at ho hfresh ⊢
  have hne (d : Char) (hd : isSpace d = false) : Option.some c ≠ .some d := by
    rintro ⟨rfl⟩
    rw [hc] at hd
    cases hd
  have hdigit : c.isDigit = false := Outlook.not_isDigit_of_isSpace hc
  have hchar : isNameChar c = false := by
    have hstart := Outlook.not_isNameStart_of_isSpace hc
    simp only [Bool.or_eq_false_iff] at hstart
    simp [isNameChar, hstart, hdigit]
  have hends {y : List Char} (hy : t.nameIn x = y) : Outlook.EndsName y { head := .some c, quote := q } := by
    rintro d ⟨⟩
    exact ⟨hy ▸ hfresh c rfl, by rw [if_neg fun hb => hne '\\' rfl (congrArg some hb)]; exact hchar⟩
  have hmark (y : List Char) (hy : o.KeepsName y) : y ≠ ['-'] := fun hm => by
    have hb := hy.1 hm
    cases ho with
    | space => exact hne _ rfl hb
    | slash => cases hb
  have hkeeps {y : List Char} (hy : t.nameIn x = y) (hk : o.KeepsName y) :
      Outlook.KeepsName y { head := .some c, quote := q } := ⟨fun hm => absurd hm (hmark y hk), hends hy⟩
  cases t with
  | space => exact absurd rfl ht
  | ident => exact ⟨hkeeps rfl hsettled.1, hne _ rfl, fun _ => hne _ rfl⟩
  | function =>
    intro hurl
    have hquote := hsettled hurl
    rw [ho.quote] at hquote
    cases hquote
  | atKeyword => exact hkeeps rfl hsettled
  | idHash => exact hkeeps rfl hsettled
  | hash => exact ⟨fun _ => hne _ rfl, hends rfl⟩
  | badString =>
    obtain ⟨d, hd, hn, hf⟩ := hsettled
    exact ⟨d, ho.newline hd hn, hn, hf⟩
  | number n => exact ⟨⟨hdigit, fun _ _ => rfl, fun _ => rfl⟩, hne _ rfl, rfl⟩
  | dimension n => exact ⟨hkeeps rfl hsettled.1, fun hn => ho.through_exponent (hsettled.2 hn)⟩
  | delim d =>
    have hkept : o.KeepsDelim d := hsettled
    have hd : isSpace d = false := Reads.isSpace_delim (h.sign rfl ▸ h)
    have hstep := ho.step hd
    have hhyphen : c ≠ '-' := fun hm => hne '-' rfl (congrArg some hm)
    exact ⟨hstep ▸ hkept.number, hstep ▸ hkept.name, fun _ => rfl, fun _ => ⟨rfl, by simp [hdigit, hhyphen]⟩, fun _ => rfl,
      fun _ => hne _ rfl, fun _ => rfl, fun _ => hne _ rfl⟩
  | _ => trivial

end

/-! ## Names that take a space along -/

/-- The text ends in a backslash and one to six hexadecimal digits. -/
def EndsInEscape (x : List Char) : Prop :=
  ∃ front digits, x = front ++ '\\' :: digits ∧ digits ≠ [] ∧ digits.length ≤ 6 ∧ ∀ c ∈ digits, isHexDigit c = true

theorem EndsInEscape.append {x : List Char} (h : EndsInEscape x) (front : List Char) : EndsInEscape (front ++ x) := by
  obtain ⟨y, digits, rfl, hdigits⟩ := h
  exact ⟨front ++ y, digits, by rw [List.append_assoc], hdigits⟩

theorem EndsInEscape.of_suffix {x y : List Char} (h : EndsInEscape y) (hy : y <:+ x) : EndsInEscape x := by
  obtain ⟨front, rfl⟩ := hy
  exact h.append front

namespace EscapeState

theorem after_concat (st : EscapeState) (x : List Char) (c : Char) : st.after (x ++ [c]) = (st.after x).next c := by
  simp [after]

theorem next_eq_slash {st : EscapeState} {c : Char} (h : st.next c = .slash) : c = '\\' := by
  unfold next at h
  split at h
  · split at h
    · rename_i hc
      exact beq_iff_eq.1 hc
    · cases h
  · split at h
    · split_ifs at h
    · split_ifs at h
    · cases h

theorem next_eq_hex {st : EscapeState} {c : Char} {n k : Nat} (h : st.next c = .hex n k) :
    isHexDigit c = true ∧ (st = .slash ∧ n = 1 ∨ ∃ m j, st = .hex m j ∧ n = m + 1 ∧ n ≤ 6) := by
  unfold next at h
  split at h
  · split_ifs at h
  · split at h
    · split_ifs at h with hc
      cases h
      exact ⟨hc, .inl ⟨rfl, rfl⟩⟩
    · split_ifs at h with hc
      cases h
      simp only [Bool.and_eq_true, decide_eq_true_eq] at hc
      exact ⟨hc.2, .inr ⟨_, _, rfl, rfl, by omega⟩⟩
    · cases h

/-- Where one stands after some digits, they are at the end of the text. -/
theorem exists_digits {x : List Char} {n k : Nat} (h : plain.after x = .hex n k) :
    ∃ front digits, x = front ++ '\\' :: digits ∧ digits.length = n ∧ 0 < n ∧ n ≤ 6 ∧ ∀ c ∈ digits, isHexDigit c = true := by
  induction x using List.reverseRecOn generalizing n k with
  | nil => cases h
  | append_singleton x c ih =>
    rw [after_concat] at h
    obtain ⟨hc, ⟨hslash, rfl⟩ | ⟨m, j, hhex, rfl, hle⟩⟩ := next_eq_hex h
    · obtain ⟨y, d, rfl⟩ : ∃ y d, x = y ++ [d] := by
        rcases x.eq_nil_or_concat with rfl | ⟨y, d, rfl⟩
        · cases hslash
        · exact ⟨y, d, List.concat_eq_append⟩
      rw [after_concat] at hslash
      obtain rfl := next_eq_slash hslash
      exact ⟨y, [c], by simp, rfl, by omega, by omega, by simpa using hc⟩
    · obtain ⟨front, digits, rfl, hlen, -, -, hdigits⟩ := ih hhex
      refine ⟨front, digits ++ [c], by simp, by simp [hlen], by omega, hle, fun d hd => ?_⟩
      rcases List.mem_append.1 hd with hd | hd
      · exact hdigits d hd
      · exact List.mem_singleton.1 hd ▸ hc

theorem endsInEscape {x : List Char} {n k : Nat} (h : plain.after x = .hex n k) : EndsInEscape x := by
  obtain ⟨front, digits, rfl, hlen, hpos, hle, hdigits⟩ := exists_digits h
  refine ⟨front, digits, rfl, ?_, by omega, hdigits⟩
  rintro rfl
  simp at hlen
  omega

/-- A space before which a slash ends the escape is a part of it only after digits. -/
theorem isFresh_space {st : EscapeState} (h : st.isFresh '/' = true) : st.isFresh ' ' = true ∨ ∃ n k, st = .hex n k := by
  cases st with
  | plain => exact .inl rfl
  | slash => cases h
  | hex n k => exact .inr ⟨n, k, rfl⟩
  | carriage => exact .inl rfl

end EscapeState

section

variable {x u w : List Char} {n k : Nat} {t : Token}

/-- A name that ends in an escape takes one space, and ends there before another. -/
theorem nameAt_takes_space (h : nameAt (x ++ u) = x) (hx : EscapeState.plain.after x = .hex n k) (w : List Char) :
    nameAt ((x ++ [' ']) ++ ' ' :: w) = x ++ [' '] := by
  have hrest : spanEscaped false isNameChar (.hex n k) (' ' :: ' ' :: w) = ([' '], ' ' :: w) := by
    simp [spanEscaped, endsRun, EscapeState.isFresh, EscapeState.next, isHexDigit, isSpace, isNameChar, isNameStart]
  have hjoin := spanEscaped_join (' ' :: ' ' :: w) (spanEscaped_alone (nameAt_append_iff.1 h)) (by rw [hx]; simp)
  rw [hx, hrest] at hjoin
  rw [nameAt_append_iff, List.append_assoc]
  exact hjoin

/-- An escape has two characters at least, from which it is seen whether a name
starts. -/
theorem startsName_of_escape (hx : EscapeState.plain.after x = .hex n k) (u v : List Char) :
    startsName (x ++ u) = startsName (x ++ v) := by
  obtain ⟨front, digits, rfl, rfl, hpos, -⟩ := EscapeState.exists_digits hx
  obtain ⟨d, digits, rfl⟩ := List.exists_cons_of_ne_nil (List.length_pos_iff.1 hpos)
  match front with
  | [] => rfl
  | [c] => rfl
  | c :: e :: front => rfl

/-- Where a number starts, the token of it is read. -/
theorem reads_numberAt (hs : Numeral.startsAt (x ++ u) = true) (h : numberAt (x ++ u) = (t, x.length)) (hx : x ≠ []) :
    Reads x u t := by
  obtain ⟨c, cs, rfl⟩ := List.exists_cons_of_ne_nil hx
  refine ⟨c, cs, rfl, ?_⟩
  rw [List.cons_append] at hs h
  have hne {d : Char} (hd : d.isDigit = false ∧ d ≠ '+' ∧ d ≠ '-' ∧ d ≠ '.') : c ≠ d := by
    rintro rfl
    simp [Numeral.startsAt_of_ne _ hd.2.1 hd.2.2.1, hd] at hs
  have hspace : isSpace c = false := by
    by_contra hc
    rw [Bool.not_eq_false, isSpace_iff] at hc
    rcases hc with rfl | rfl | rfl | rfl | rfl <;> exact hne (by decide) rfl
  have hquote : (c == '"' || c == '\'') = false := by
    have h1 : c ≠ '"' := hne (by decide)
    have h2 : c ≠ '\'' := hne (by decide)
    simp [h1, h2]
  simp only [tokenAt, hspace, hquote, hs, h, Bool.false_eq_true, if_false, if_true]

/-- A slash, or a comment, which begins with one. -/
def Token.isSlash : Token → Bool
  | .delim c => c == '/'
  | .comment => true
  | _ => false

theorem tokenAt_atSign_takes_space (h : tokenAt '@' (x ++ u) = (t, x.length + 1))
    (hx : EscapeState.plain.after x = .hex n k) (w : List Char) :
    ∃ t', tokenAt '@' ((x ++ [' ']) ++ ' ' :: w) = (t', (x ++ [' ']).length + 1) ∧ t'.isSlash = false := by
  rw [tokenAt_atSign] at h
  split at h
  · rename_i hs
    obtain ⟨-, hname⟩ := eq_of_named h
    rw [startsName_of_escape hx u ([' '] ++ ' ' :: w), ← List.append_assoc] at hs
    rw [tokenAt_atSign, if_pos hs, nameAt_takes_space hname hx w, Nat.add_comm 1]
    exact ⟨_, rfl, rfl⟩
  · rw [(eq_of_single h).2] at hx
    cases hx

theorem tokenAt_hashSign_takes_space (h : tokenAt '#' (x ++ u) = (t, x.length + 1))
    (hx : EscapeState.plain.after x = .hex n k) (w : List Char) :
    ∃ t', tokenAt '#' ((x ++ [' ']) ++ ' ' :: w) = (t', (x ++ [' ']).length + 1) ∧ t'.isSlash = false := by
  have hne : x ≠ [] := by
    rintro rfl
    cases hx
  have hhead : (x ++ u).head? = ((x ++ [' ']) ++ ' ' :: w).head? := by
    rw [List.append_assoc, head?_append_of_ne_nil hne, head?_append_of_ne_nil hne]
  rw [tokenAt_hashSign, startsName_of_escape hx u ([' '] ++ ' ' :: w), ← List.append_assoc, hhead] at h
  rw [tokenAt_hashSign]
  split at h
  · rename_i hs
    rw [if_pos hs, nameAt_takes_space (eq_of_named h).2 hx w, Nat.add_comm 1]
    exact ⟨_, rfl, rfl⟩
  split at h
  · rename_i hs hd
    rw [if_neg hs, if_pos hd, nameAt_takes_space (eq_of_named h).2 hx w, Nat.add_comm 1]
    exact ⟨_, rfl, rfl⟩
  · exact absurd (eq_of_single h).2 hne

/-- A dimension before a slash has its unit there, and a unit that takes a space
is read as one too. -/
theorem numberAt_takes_space {number : Numeral} {unit : String} (hs : Numeral.startsAt (x ++ '/' :: u) = true)
    (h : numberAt (x ++ '/' :: u) = (.dimension number unit, x.length))
    (hx : EscapeState.plain.after (x.drop number.text.length) = .hex n k) (w : List Char) :
    Numeral.startsAt ((x ++ [' ']) ++ ' ' :: w) = true ∧
      ∃ t', numberAt ((x ++ [' ']) ++ ' ' :: w) = (t', (x ++ [' ']).length) ∧ t'.isSlash = false := by
  obtain ⟨hn, rest, hrest, hend⟩ := Numeral.read_spec hs
  have hread := Numeral.read_append hn hend
  generalize Numeral.read (x ++ '/' :: u) = m at *
  rw [hrest, numberAt_append hread] at h
  split at h
  · cases h
  split at h
  · rename_i hpercent hname
    obtain ⟨name, rest, rfl, hnm⟩ := exists_nameAt rest
    rw [hnm] at h
    obtain ⟨hm, hlen⟩ := Prod.mk.inj h
    obtain ⟨rfl, -⟩ := Token.dimension.inj hm
    obtain ⟨rfl, rfl⟩ := List.append_inj (by simpa using hrest : x ++ '/' :: u = m.text ++ name ++ rest)
      (by simpa using hlen.symm)
    rw [List.drop_left] at hx
    have hvname := hname
    rw [startsName_of_escape hx ('/' :: u) ([' '] ++ ' ' :: w), ← List.append_assoc] at hvname
    obtain ⟨hdigit, hpoint, hvpercent⟩ := not_number_of_startsName hvname
    have hvend : m.EndsBefore ((name ++ [' ']) ++ ' ' :: w) := by
      refine endsBefore_iff.2 ⟨hdigit, fun _ _ => hpoint, fun he => ?_⟩
      have hexponent := outlook_exponent.2 (hend.exponent he)
      rw [outlook_append] at hexponent
      rw [List.append_assoc, outlook_append]
      exact (outlook_blanked u w).through_exponent hexponent
    have htext : (m.text ++ name ++ [' ']) ++ ' ' :: w = m.text ++ ((name ++ [' ']) ++ ' ' :: w) := by simp
    rw [htext, numberAt_append (Numeral.read_append hn hvend), if_neg hvpercent, if_pos hvname,
      nameAt_takes_space hnm hx w]
    exact ⟨Numeral.startsAt_text hn _, _, Prod.ext rfl (by simp), rfl⟩
  · cases h

/-- A token the name of which ends in an escape takes one of two spaces in the
place of a slash, and is still the token of a name. -/
theorem Reads.takes_space (h : Reads x ('/' :: u) t) (hx : EscapeState.plain.after (t.nameIn x) = .hex n k)
    (w : List Char) : ∃ t', Reads (x ++ [' ']) (' ' :: w) t' ∧ t'.isSlash = false := by
  have hash (hl : t.lead = ['#']) (ht : t.nameIn x = x.tail) :
      ∃ t', Reads (x ++ [' ']) (' ' :: w) t' ∧ t'.isSlash = false := by
    obtain ⟨cs, rfl, htoken⟩ := h.marked hl
    obtain ⟨t', htoken', ht'⟩ := tokenAt_hashSign_takes_space htoken (by rwa [ht] at hx) w
    exact ⟨t', ⟨'#', cs ++ [' '], rfl, htoken'⟩, ht'⟩
  cases t with
  | ident name =>
    have hx : EscapeState.plain.after x = .hex n k := hx
    obtain ⟨hs, hname, -⟩ := h.ident
    rw [startsName_of_escape hx ('/' :: u) ([' '] ++ ' ' :: w), ← List.append_assoc] at hs
    refine ⟨_, reads_name hs (nameTokenAt_ident (nameAt_takes_space hname hx w) (by simp)) (by simp) fun hclose => ?_, rfl⟩
    have := congrArg List.getLast? hclose
    simp at this
  | atKeyword name =>
    obtain ⟨cs, rfl, htoken⟩ := h.marked rfl
    obtain ⟨t', htoken', ht'⟩ := tokenAt_atSign_takes_space htoken hx w
    exact ⟨t', ⟨'@', cs ++ [' '], rfl, htoken'⟩, ht'⟩
  | idHash name => exact hash rfl rfl
  | hash name => exact hash rfl rfl
  | dimension number unit =>
    obtain ⟨hs, hnumber⟩ := h.numeric rfl
    obtain ⟨hs', t', hnumber', ht'⟩ := numberAt_takes_space hs hnumber hx w
    exact ⟨t', reads_numberAt hs' hnumber' (by simp), ht'⟩
  | _ => cases hx

end

/-! ## Lexemes before the space -/

/-- What stands after a token is no part of its name. -/
theorem Reads.isFresh_nameIn {x u : List Char} {t : Token} (h : Reads x u t) {c : Char}
    (hc : (outlook u).head = .some c) : (EscapeState.plain.after (t.nameIn x)).isFresh c = true := by
  have hu : u ≠ [] := by
    rintro rfl
    cases hc
  have hsettled := h.settled hu
  cases t with
  | ident => exact (hsettled.1.2 c hc).1
  | atKeyword => exact (hsettled.2 c hc).1
  | idHash => exact (hsettled.2 c hc).1
  | hash => exact (hsettled.2 c hc).1
  | dimension => exact (hsettled.1.2 c hc).1
  | _ => rfl

/-- Of spaces only the first is seen, where no quote stands behind them. -/
theorem Reads.outlook_space {x u : List Char} (h : Reads x u .space) (hq : (outlook u).quote = false) :
    ∃ c, isSpace c = true ∧ x.head? = .some c ∧ outlook (x ++ u) = { head := .some c } := by
  have hx : ∀ c ∈ x, isSpace c = true := fun c hc => h.isSpace_of_mem hc
  obtain ⟨c, cs, rfl⟩ := List.exists_cons_of_ne_nil h.ne_nil
  have hc := hx c List.mem_cons_self
  refine ⟨c, hc, rfl, ?_⟩
  rw [List.cons_append, ThemeVars.outlook_space hc, outlook_quote,
    List.dropWhile_append_of_pos fun d hd => hx d (List.mem_cons_of_mem c hd), ← outlook_quote, hq]

theorem Reads.exists_not_space {x u : List Char} {t : Token} (h : Reads x u t) (ht : t ≠ .space) :
    ∃ c ∈ x, isSpace c = false := by
  obtain ⟨c, cs, rfl⟩ := List.exists_cons_of_ne_nil h.ne_nil
  exact ⟨c, List.mem_cons_self, h.isSpace_head ht⟩

/-- What is read of some lexemes and of the space `w` after them: their last
spaces are one with it, or their last token takes its first character. -/
inductive Blank (w : List Char) : List Lexeme → List Lexeme → Prop
  | kept (front spaces : List Lexeme) {ls : List Lexeme} (hls : ls = front ++ spaces) :
      Blank w ls (front ++ [⟨.space, spaces.flatMap (·.text) ++ w, 0⟩])
  | taken {front : List Lexeme} {l : Lexeme} {t : Token} {space : List Char} (hl : EndsInEscape l.text)
      (ht : t.isSlash = false) (hw : w = ' ' :: space) :
      Blank w (front ++ [l]) (front ++ [⟨t, l.text ++ [' '], 0⟩, ⟨.space, space, 0⟩])

section

variable {ls ms rs vs : List Lexeme} {l : Lexeme} {u v w : List Char}

/-- Before a word nothing is seen of the space behind it. -/
theorem Tiled.before_word (h : Tiled (ls ++ l :: ms)) (hl : l.token ≠ .space)
    (ho : (outlook (ms.flatMap (·.text))).Blanked (outlook v)) (hvs : Tiled vs)
    (hv : vs.flatMap (·.text) = l.text ++ v) : Tiled (ls ++ vs) := by
  refine (tiled_append h hvs (.inl ?_)).1
  rw [hv, List.flatMap_cons, outlook_append, outlook_append]
  exact ho.through (h.of_append.1.exists_not_space hl)

/-- Lexemes are read before a longer space as before a space. -/
theorem Tiled.blank_space {c : Char} (h : Tiled (ls ++ ms)) (hw : ∀ c ∈ w, isSpace c = true) (hrs : Tiled rs)
    (hhead : (rs.flatMap (·.text)).head?.any isSpace = false) (hc : isSpace c = true)
    (hms : outlook (ms.flatMap (·.text)) = { head := .some c }) (hwc : w.head? = .some c) :
    ∃ front spaces, ls = front ++ spaces ∧ Tiled (front ++ ⟨.space, spaces.flatMap (·.text) ++ w, 0⟩ :: rs) := by
  have hne : w ≠ [] := by
    rintro rfl
    cases hwc
  induction ls using List.reverseRecOn generalizing ms w c with
  | nil => exact ⟨[], [], rfl, reads_spaces hw hne hhead, hrs⟩
  | append_singleton ls l ih =>
    rw [List.append_assoc, List.singleton_append] at h
    have hread := h.of_append.1
    have ho : (outlook (ms.flatMap (·.text))).Blanked (outlook (w ++ rs.flatMap (·.text))) := by
      obtain ⟨w, rfl⟩ := List.head?_eq_some_iff.1 hwc
      rw [hms, List.cons_append, outlook_space hc]
      exact .space hc _
    by_cases hl : l.token = .space
    · rw [hl] at hread
      obtain ⟨d, hd, hld, hlo⟩ := hread.outlook_space ho.quote
      have hspaces : ∀ e ∈ l.text ++ w, isSpace e = true := fun e he =>
        (List.mem_append.1 he).elim hread.isSpace_of_mem (hw e)
      obtain ⟨front, spaces, rfl, hfront⟩ :=
        ih h hspaces hd hlo (by rw [List.head?_append, hld]; rfl) (by simp [hread.ne_nil])
      exact ⟨front, spaces ++ [l], by simp, by simpa using hfront⟩
    · have hl' := hread.before_blank (by rintro hnil; rw [hnil] at hms; cases hms) hl ho fun d hd =>
        hread.isFresh_nameIn (by rw [← hd, hms, outlook_head, List.head?_append, hwc]; rfl)
      refine ⟨ls ++ [l], [], by simp, ?_⟩
      have hvs : Tiled (l :: ⟨.space, w, 0⟩ :: rs) := ⟨hl', reads_spaces hw hne hhead, hrs⟩
      simpa using h.before_word hl ho hvs rfl

/-- Lexemes are read before two spaces and more as before a slash, save that an
escape at their end takes one. -/
theorem Tiled.blank (h : Tiled (ls ++ ms)) (hw : ∀ c ∈ w, isSpace c = true) (hrs : Tiled rs)
    (hhead : (rs.flatMap (·.text)).head?.any isSpace = false) (hms : ms.flatMap (·.text) = '/' :: u)
    (hww : w = ' ' :: ' ' :: v) :
    ∃ new, Blank w ls new ∧ Tiled (new ++ rs) := by
  subst hww
  have hspace : ∀ c ∈ ' ' :: v, isSpace c = true := fun c hc => hw c (List.mem_cons_of_mem _ hc)
  rcases ls.eq_nil_or_concat with rfl | ⟨ls, l, rfl⟩
  · exact ⟨_, .kept [] [] rfl, reads_spaces hw (by simp) hhead, hrs⟩
  rw [List.concat_eq_append] at h ⊢
  rw [List.append_assoc, List.singleton_append] at h
  have hread := h.of_append.1
  have ho : (outlook (ms.flatMap (·.text))).Blanked (outlook (' ' :: ' ' :: v ++ rs.flatMap (·.text))) := by
    rw [hms]
    exact outlook_blanked u _
  by_cases hl : l.token = .space
  · rw [hl] at hread
    obtain ⟨d, hd, hld, hlo⟩ := hread.outlook_space ho.quote
    have hspaces : ∀ e ∈ l.text ++ ' ' :: ' ' :: v, isSpace e = true := fun e he =>
      (List.mem_append.1 he).elim hread.isSpace_of_mem (hw e)
    obtain ⟨front, spaces, rfl, hfront⟩ :=
      h.blank_space hspaces hrs hhead hd hlo (by rw [List.head?_append, hld]; rfl)
    exact ⟨_, .kept front (spaces ++ [l]) (by simp), by simpa using hfront⟩
  · have hfresh := hread.isFresh_nameIn (show _ = some '/' by rw [hms]; rfl)
    rcases EscapeState.isFresh_space hfresh with hfresh | ⟨n, k, hescape⟩
    · have hl' := hread.before_blank (by simp [hms]) hl ho fun d hd => by
        cases hd
        exact hfresh
      have hvs : Tiled (l :: ⟨.space, ' ' :: ' ' :: v, 0⟩ :: rs) := ⟨hl', reads_spaces hw (by simp) hhead, hrs⟩
      refine ⟨_, .kept (ls ++ [l]) [] (List.append_nil _).symm, ?_⟩
      simpa using h.before_word hl ho hvs rfl
    · obtain ⟨t, ht, hmark⟩ := (hms ▸ hread).takes_space hescape (v ++ rs.flatMap Lexeme.text)
      have hvs : Tiled (⟨t, l.text ++ [' '], 0⟩ :: ⟨.space, ' ' :: v, 0⟩ :: rs) :=
        ⟨ht, reads_spaces hspace (by simp) hhead, hrs⟩
      refine ⟨_, .taken ((EscapeState.endsInEscape hescape).of_suffix (Token.nameIn_isSuffix _ _)) hmark rfl, ?_⟩
      simpa using h.before_word hl ho hvs (by simp)

end

/-- The space that lexemes begin with, if any, and the lexemes after it. -/
theorem Tiled.exists_space {ls : List Lexeme} (h : Tiled ls) :
    ∃ w start rs, (∀ c ∈ w, isSpace c = true) ∧ Tiled rs ∧ (rs.flatMap (·.text)).head?.any isSpace = false ∧
      (w = [] ∧ ls = rs ∨ ls = ⟨.space, w, start⟩ :: rs) := by
  cases ls with
  | nil => exact ⟨[], 0, [], by simp, trivial, rfl, .inl ⟨rfl, rfl⟩⟩
  | cons l ls =>
    by_cases hl : l.token = .space
    · obtain ⟨token, text, start⟩ := l
      obtain rfl : token = .space := hl
      refine ⟨text, start, ls, fun c hc => h.1.isSpace_of_mem hc, h.2, ?_, .inr rfl⟩
      by_cases hnil : ls.flatMap (·.text) = []
      · rw [hnil]
        rfl
      · rw [← outlook_head]
        exact h.1.settled hnil
    · refine ⟨[], 0, l :: ls, by simp, h, ?_, .inl ⟨rfl, rfl⟩⟩
      rw [List.flatMap_cons, head?_append_of_ne_nil h.1.ne_nil]
      exact h.1.isSpace_head hl

end ThemeVars
