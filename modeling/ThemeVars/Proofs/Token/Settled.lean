/-
Tokens before other texts. `Settled` says which outlooks leave a token as it
is. `Reads.settled`: the text before which a token was read has such an
outlook. `Reads.change`: before any text that has one, the same is read.
-/
import ThemeVars.Proofs.Token.Outlook

namespace ThemeVars

open Text

/-! ## Runs before other texts -/

/-- Only before a backslash does it matter what comes after the next character. -/
theorem RunEnds.cons {inString : Bool} {admits : Char → Bool} {st : EscapeState} {c : Char} {u : List Char}
    (h : RunEnds inString admits st (c :: u)) (hc : c ≠ '\\') (v : List Char) :
    RunEnds inString admits st (c :: v) := by
  intro d ds hd
  cases hd
  have := h c u rfl
  simpa [endsRun, hc] using this

/-- Two characters are as far as it matters what a run stopped at. -/
theorem RunEnds.before {inString : Bool} {admits : Char → Bool} {st : EscapeState} {z u : List Char}
    (h : RunEnds inString admits st (z ++ u)) (hz : z ≠ []) (hb : z ≠ ['\\']) (v : List Char) :
    RunEnds inString admits st (z ++ v) := by
  rcases z with _ | ⟨c, _ | ⟨d, z⟩⟩
  · exact absurd rfl hz
  · exact h.cons (fun hc => hb (by rw [hc])) v
  · intro e es he
    obtain ⟨rfl, rfl⟩ := List.cons.inj he
    exact h c (d :: (z ++ u)) rfl

/-- A run that stopped before a text stops before any other that ends it. -/
theorem spanEscaped_before {inString : Bool} {admits : Char → Bool} {x u v : List Char} (hu : u ≠ [])
    (h : spanEscaped inString admits .plain (x ++ u) = (x, u))
    (hv : RunEnds inString admits (EscapeState.plain.after x) v) :
    spanEscaped inString admits .plain (x ++ v) = (x, v) := by
  refine spanEscaped_change h (fun hs => hu ?_) hv
  have hend := runEnds_of_spanEscaped h
  rw [hs] at hend
  exact eq_nil_of_runEnds_slash hend

/-! ## Spaces, comments and strings -/

theorem takeWhile_space_before {x u v : List Char} (h : ((x ++ u).takeWhile isSpace).length = x.length) :
    u.head?.any isSpace = false ∧
      (v.head?.any isSpace = false → ((x ++ v).takeWhile isSpace).length = x.length) := by
  have hx : (x ++ u).takeWhile isSpace = x := by
    obtain ⟨rest, hrest⟩ := List.takeWhile_prefix (l := x ++ u) isSpace
    exact (List.append_inj hrest h).1
  have hspace : ∀ c ∈ x, isSpace c = true := fun c hc => List.mem_takeWhile_imp (hx ▸ hc)
  constructor
  · rw [List.takeWhile_append_of_pos hspace, List.length_append] at h
    cases u with
    | nil => rfl
    | cons c u =>
      have hnone : (c :: u).takeWhile isSpace = [] := List.length_eq_zero_iff.1 (by omega)
      by_contra hc
      simp at hc
      simp [hc] at hnone
  · intro hv
    rw [(takeWhile_spaces hspace hv).1]

theorem commentBody_before {x u : List Char} (hu : u ≠ []) (h : (commentBody (x ++ u)).length = x.length)
    (v : List Char) : (commentBody (x ++ v)).length = x.length := by
  induction x with
  | nil =>
    cases u with
    | nil => exact absurd rfl hu
    | cons c u =>
      simp only [List.nil_append, commentBody] at h
      split at h <;> simp at h
  | cons c x ih =>
    rcases x with _ | ⟨d, x⟩
    · exfalso
      simp only [List.cons_append, commentBody] at h
      split at h
      · simp at h
      · simp only [List.nil_append, List.length_cons, List.length_nil, Nat.add_right_cancel_iff] at h
        cases u with
        | nil => exact hu rfl
        | cons c u =>
          simp only [commentBody] at h
          split at h <;> simp at h
    · rw [List.cons_append, commentBody] at h ⊢
      by_cases hc : (c == '*' && some d == some '/') = true
      · simp only [List.cons_append, List.head?_cons, hc, if_true] at h ⊢
        exact h
      · simp only [List.cons_append, List.head?_cons, hc, Bool.false_eq_true, if_false, List.length_cons,
          Nat.add_right_cancel_iff] at h ⊢
        exact ih h

/-- A string is closed, unless the text ends or a newline that is no part of
an escape ends it. -/
theorem stringAt_before {q : Char} {x u : List Char} {t : Token} (hq : q = '"' ∨ q = '\'') (hu : u ≠ [])
    (h : stringAt q (x ++ u) = (t, x.length)) :
    (∃ value, t = .string value ∧ ∀ v, stringAt q (x ++ v) = (t, x.length)) ∨
      (∃ value, t = .badString value ∧
        (∃ c, u.head? = .some c ∧ isNewline c = true ∧ (EscapeState.plain.after x).isFresh c = true) ∧
        ∀ v c, v.head? = .some c → isNewline c = true → (EscapeState.plain.after x).isFresh c = true →
          stringAt q (x ++ v) = (t, x.length)) := by
  have hs := spanEscaped_append true (isStringChar q) .plain (x ++ u)
  generalize hp : spanEscaped true (isStringChar q) .plain (x ++ u) = p at hs
  obtain ⟨run, rest⟩ := p
  simp only at hs
  rw [← hs] at hp h
  rw [stringAt_append hp] at h
  have hqb : q ≠ '\\' := by rcases hq with rfl | rfl <;> decide
  split at h
  · rename_i hrest
    obtain ⟨-, hlen⟩ := Prod.mk.inj h
    rw [hrest, List.append_nil] at hs
    have := congrArg List.length hs
    rw [List.length_append] at this
    exact absurd (List.length_eq_zero_iff.1 (by omega)) hu
  split at h
  · rename_i hne hhead
    obtain ⟨rfl, hlen⟩ := Prod.mk.inj h
    obtain ⟨r, rfl⟩ := List.head?_eq_some_iff.1 hhead
    obtain ⟨rfl, rfl⟩ := List.append_inj (by simpa using hs : run ++ [q] ++ r = x ++ u) (by simpa using hlen)
    refine .inl ⟨_, rfl, fun v => ?_⟩
    have hend := (runEnds_of_spanEscaped hp).cons hqb v
    rw [List.append_assoc, List.singleton_append, stringAt_append (spanEscaped_before hne hp hend)]
    simp
  · rename_i hne hhead
    obtain ⟨rfl, hlen⟩ := Prod.mk.inj h
    obtain ⟨rfl, rfl⟩ := List.append_inj hs hlen
    have hend := runEnds_of_spanEscaped hp
    refine .inr ⟨_, rfl, ?_, fun v c hv hc hfresh => ?_⟩
    · cases rest with
      | nil => exact absurd rfl hne
      | cons c rest =>
        have hc := hend c rest rfl
        simp only [endsRun, Bool.and_eq_true] at hc
        refine ⟨c, rfl, ?_, hc.1⟩
        have hcq : c ≠ q := fun h => hhead (congrArg some h)
        by_cases hb : c = '\\'
        · simp [hb] at hc
        · simpa [hb, isStringChar, hcq] using hc.2
    · obtain ⟨v, rfl⟩ := List.head?_eq_some_iff.1 hv
      have hb : c ≠ '\\' := by rintro rfl; cases hc
      have hcq : c ≠ q := by
        rintro rfl
        rcases hq with rfl | rfl <;> cases hc
      have hvend : RunEnds true (isStringChar q) (EscapeState.plain.after run) (c :: v) := by
        intro d ds hd
        cases hd
        simp [endsRun, hfresh, hb, isStringChar, hc]
      rw [stringAt_append (spanEscaped_before hne hp hvend)]
      simp [hcq]

/-! ## Urls -/

theorem urlAt_eq_none_iff {s : List Char} : urlAt s = .none ↔ (outlook s).quote = true := by
  rw [outlook_quote]
  obtain ⟨lead, path, tail, stop, rfl, hparts⟩ := exists_urlParts s
  rw [urlAt_append hparts, (takeWhile_spaces hparts.lead hparts.head).2]
  cases (path ++ (tail ++ stop)).head?.any isQuote with
  | true => exact ⟨fun _ => rfl, fun _ => rfl⟩
  | false => exact ⟨fun h => (nomatch h), fun h => (nomatch h)⟩

/-- A bad url goes to the end, or to a parenthesis. -/
theorem badUrlBody_cases (taken : Bool) (s : List Char) :
    badUrlBody taken s = s ∨ ∃ r, s = badUrlBody taken s ++ ')' :: r := by
  induction s generalizing taken with
  | nil => exact .inl rfl
  | cons c s ih =>
    simp only [badUrlBody]
    split
    · rcases ih false with h | ⟨r, hr⟩
      · exact .inl (by rw [h])
      · exact .inr ⟨r, congrArg (c :: ·) hr⟩
    split
    · rename_i hc
      exact .inr ⟨s, by simpa using hc⟩
    · rcases ih (c == '\\' && s.head?.any fun d => d == ')' || d == '\\') with h | ⟨r, hr⟩
      · exact .inl (by rw [h])
      · exact .inr ⟨r, congrArg (c :: ·) hr⟩

theorem badUrlBody_before {taken : Bool} {x u : List Char} (h : badUrlBody taken (x ++ ')' :: u) = x) (v : List Char) :
    badUrlBody taken (x ++ ')' :: v) = x := by
  induction x generalizing taken with
  | nil =>
    rw [List.nil_append, badUrlBody] at h ⊢
    cases taken <;> simp_all
  | cons c x ih =>
    have hhead : (x ++ ')' :: u).head? = (x ++ ')' :: v).head? := by cases x <;> rfl
    rw [List.cons_append, badUrlBody] at h ⊢
    rw [← hhead]
    split
    · rename_i ht
      rw [if_pos ht, List.cons.injEq] at h
      rw [ih h.2]
    · rename_i ht
      rw [if_neg ht] at h
      split
      · rename_i hc
        simp [hc] at h
      · rename_i hc
        rw [if_neg hc, List.cons.injEq] at h
        rw [ih h.2]

theorem head?_append_of_ne_nil {x : List Char} (hx : x ≠ []) (u : List Char) : (x ++ u).head? = x.head? := by
  cases x with
  | nil => exact absurd rfl hx
  | cons c x => rfl

/-- The parts of a url before another text. -/
theorem UrlParts.before {lead path tail stop u : List Char} (h : UrlParts lead path tail (stop ++ u))
    (hs : stop ≠ []) (hb : stop ≠ ['\\']) (v : List Char) : UrlParts lead path tail (stop ++ v) := by
  have hne : tail ++ stop ≠ [] := by simp [hs]
  have hnb : tail ++ stop ≠ ['\\'] := by
    intro htail
    rcases tail with _ | ⟨c, tail⟩
    · exact hb htail
    · simp [hs] at htail
  have hspan := spanEscaped_before (v := tail ++ (stop ++ v)) (by simp [hs]) h.path
    (by
      have hend := runEnds_of_spanEscaped h.path
      rw [← List.append_assoc] at hend ⊢
      exact hend.before hne hnb v)
  refine ⟨h.lead, ?_, hspan, h.tail, ?_⟩
  · have hhead := h.head
    rw [← List.append_assoc tail, ← List.append_assoc, head?_append_of_ne_nil (by simp [hs])] at hhead ⊢
    exact hhead
  · have hstop := h.stop
    rw [head?_append_of_ne_nil hs] at hstop ⊢
    exact hstop

/-- What stops a url stops it before any other text. -/
theorem urlStop_before {path tail s u : List Char} (hu : u ≠ []) (h : (urlStop path tail (s ++ u)).2 = s.length)
    (v : List Char) : s ≠ [] ∧ s ≠ ['\\'] ∧ urlStop path tail (s ++ v) = urlStop path tail (s ++ u) := by
  rcases s with _ | ⟨c, s⟩
  · exfalso
    obtain ⟨c, cs, rfl⟩ := List.exists_cons_of_ne_nil hu
    simp only [List.nil_append, urlStop] at h
    split at h
    · simp at h
    · simp only [List.length_nil] at h
      omega
  simp only [List.cons_append, urlStop] at h ⊢
  by_cases hc : c = ')'
  · simp only [hc, if_true, List.length_cons] at h
    rw [List.length_eq_zero_iff.1 (Nat.add_right_cancel h.symm : s.length = 0)]
    simp [hc]
  · simp only [hc, if_false, List.length_cons] at h ⊢
    rcases badUrlBody_cases false (s ++ u) with hbad | ⟨r, hbad⟩
    · have hpos := List.length_pos_iff.2 hu
      rw [hbad, List.length_append] at h
      omega
    · generalize hj : badUrlBody false (s ++ u) = junk at *
      obtain ⟨rfl, rfl⟩ : s = junk ++ [')'] ∧ u = r := by
        refine List.append_inj (by simpa using hbad) ?_
        rw [hbad] at h
        simp only [List.drop_left, List.isEmpty_cons, Bool.false_eq_true, if_false] at h
        simp only [List.length_append, List.length_singleton]
        omega
      simp only [List.append_assoc, List.singleton_append] at hj ⊢
      rw [badUrlBody_before hj v]
      simp

theorem urlAt_before {x u : List Char} {t : Token} (hu : u ≠ []) (h : urlAt (x ++ u) = .some (t, x.length))
    (v : List Char) : urlAt (x ++ v) = .some (t, x.length) := by
  obtain ⟨lead, path, tail, stop, hx, hparts⟩ := exists_urlParts (x ++ u)
  rw [hx, urlAt_append hparts] at h
  split at h
  · cases h
  rename_i hquote
  obtain ⟨ht, hlen⟩ := Prod.mk.inj (Option.some.inj h)
  have htotal := congrArg List.length hx
  simp only [List.length_append] at htotal
  -- the url ends before `u`, and what stops it is its last part
  obtain ⟨s, rest, rfl, hs⟩ : ∃ s rest, stop = s ++ rest ∧ (urlStop path tail stop).2 = s.length :=
    ⟨stop.take (urlStop path tail stop).2, stop.drop (urlStop path tail stop).2, by simp,
      by simp [length_urlStop_le path tail stop]⟩
  obtain ⟨rfl, rfl⟩ : x = lead ++ (path ++ (tail ++ s)) ∧ u = rest := by
    refine List.append_inj (by simpa using hx) ?_
    simp only [List.length_append]
    omega
  obtain ⟨hne, hnb, hstop⟩ := urlStop_before hu hs v
  have hbefore := hparts.before hne hnb v
  have hhead (w : List Char) : (path ++ (tail ++ (s ++ w))).head? = (path ++ (tail ++ s)).head? := by
    rw [← List.append_assoc tail, ← List.append_assoc, head?_append_of_ne_nil (by simp [hne])]
  rw [hhead] at hquote
  simp only [List.append_assoc]
  rw [urlAt_append hbefore, hhead, if_neg hquote, hstop, ht, hlen]

/-! ## What leaves a token as it is -/

namespace Outlook

/-- The number goes no further. -/
structure EndsNumber (n : Numeral) (o : Outlook) : Prop where
  digit : o.head.any Char.isDigit = false
  point : n.fraction = [] → n.exponent = [] → o.point = false
  exponent : n.exponent = [] → o.exponent = false

/-- The character stays a token by itself. -/
structure KeepsDelim (c : Char) (o : Outlook) : Prop where
  number : (o.step c).number = false
  name : (o.step c).name = false
  arrow : c = '-' → o.arrow = false
  hash : c = '#' → o.name = false ∧ o.head.any (fun d => d.isDigit || d == '-') = false
  atSign : c = '@' → o.name = false
  star : c = '/' → o.head ≠ .some '*'
  bang : c = '<' → o.bang = false
  equals : (matcher? c).isSome = true → o.head ≠ .some '='

end Outlook

/-- With this outlook, the token that the text was read as stays what it is. -/
def Settled (x : List Char) (t : Token) (o : Outlook) : Prop :=
  match t with
  | .space => o.head.any isSpace = false
  | .ident _ => o.KeepsName x ∧ o.head ≠ .some '(' ∧ (x = ['-', '-'] → o.head ≠ .some '>')
  | .function name => name.lowered = "url" → o.quote = true
  | .atKeyword _ => o.KeepsName x.tail
  | .idHash _ => o.KeepsName x.tail
  | .hash _ => (x.tail = ['-'] → o.head ≠ .some '\\') ∧ o.EndsName x.tail
  | .badString _ =>
    ∃ c, o.head = .some c ∧ isNewline c = true ∧ (EscapeState.plain.after x.tail).isFresh c = true
  | .number n => o.EndsNumber n ∧ o.head ≠ .some '%' ∧ o.name = false
  | .dimension n _ =>
    o.KeepsName (x.drop n.text.length) ∧ (n.exponent = [] → (o.through (x.drop n.text.length)).exponent = false)
  | .delim c => o.KeepsDelim c
  | _ => True

theorem endsBefore_iff {n : Numeral} {u : List Char} : n.EndsBefore u ↔ (outlook u).EndsNumber n := by
  constructor
  · intro h
    exact ⟨by rw [outlook_head]; exact h.digit, fun hf he => outlook_point.2 (h.point hf he),
      fun he => outlook_exponent.2 (h.exponent he)⟩
  · intro h
    have hdigit := h.digit
    rw [outlook_head] at hdigit
    exact ⟨hdigit, fun hf he => outlook_point.1 (h.point hf he), fun he => outlook_exponent.1 (h.exponent he)⟩

/-! ## Numbers -/

theorem Numeral.startsAt_text {n : Numeral} (hn : n.Written) (v : List Char) :
    Numeral.startsAt (n.text ++ v) = true := by
  have htext : n.text ++ v = n.sign ++ (n.whole ++ (pointed n.fraction ++ (n.exponent ++ v))) := by
    simp [text_eq]
  rw [htext, startsAt, signOf_append hn, List.drop_left]
  rcases hw : n.whole with _ | ⟨d, ds⟩
  · obtain ⟨d, ds, hf⟩ := List.exists_cons_of_ne_nil (hn.digits.resolve_left (not_not.2 hw))
    have hd : d.isDigit = true := hn.fraction d (by simp [hf])
    simp [hf, pointed, hd]
  · have hd : d.isDigit = true := hn.whole d (by simp [hw])
    simp [hd]

theorem isNameStart_of_isDigit {c : Char} (h : c.isDigit = true) : isNameStart c = false := by
  simp only [Char.isDigit, Bool.and_eq_true, decide_eq_true_eq, UInt32.le_iff_toNat_le] at h
  have hz : c ≠ '\x00' := by rintro rfl; simp at h
  have hu : c ≠ '_' := by rintro rfl; simp at h
  have hlow : ¬ (c.toNat ≥ 0x80) := by
    have : c.val.toNat = c.toNat := rfl
    simp at h
    omega
  have halpha : c.isAlpha = false := by
    unfold Char.isAlpha Char.isUpper Char.isLower
    simp only [Bool.or_eq_false_iff, Bool.and_eq_false_iff, decide_eq_false_iff_not, UInt32.le_iff_toNat_le, ge_iff_le]
    simp at h ⊢
    omega
  simp [isNameStart, hz, hu, hlow, halpha]

/-- Where a name starts, no number goes on. -/
theorem not_number_of_startsName {s : List Char} (h : startsName s = true) :
    (outlook s).head.any Char.isDigit = false ∧ (outlook s).point = false ∧ s.head? ≠ .some '%' := by
  cases s with
  | nil => simp [startsName] at h
  | cons c s =>
    have hd : c.isDigit = false := by
      by_contra hd
      rw [Bool.not_eq_false] at hd
      have hm : c ≠ '-' := isDigit_ne hd rfl
      have hb : c ≠ '\\' := isDigit_ne hd rfl
      simp [startsName, hm, hb, isNameStart_of_isDigit hd] at h
    have hp : c ≠ '.' := by rintro rfl; simp [startsName, isNameStart] at h
    have hc : c ≠ '%' := by rintro rfl; simp [startsName, isNameStart] at h
    simp [Outlook.step, hd, hp, hc]

theorem numberAt_before {x u : List Char} {t : Token} (hu : u ≠ []) (hs : Numeral.startsAt (x ++ u) = true)
    (h : numberAt (x ++ u) = (t, x.length)) :
    Settled x t (outlook u) ∧ ∀ v, Settled x t (outlook v) →
      Numeral.startsAt (x ++ v) = true ∧ numberAt (x ++ v) = (t, x.length) := by
  obtain ⟨hn, rest, hx, hend⟩ := Numeral.read_spec hs
  have hread := Numeral.read_append hn hend
  generalize Numeral.read (x ++ u) = n at *
  rw [hx, numberAt_append hread] at h
  have hstart (y v : List Char) : Numeral.startsAt ((n.text ++ y) ++ v) = true := by
    rw [List.append_assoc]
    exact Numeral.startsAt_text hn _
  split at h
  · rename_i hpercent
    obtain ⟨rfl, hlen⟩ := Prod.mk.inj h
    obtain ⟨r, rfl⟩ := List.head?_eq_some_iff.1 hpercent
    obtain ⟨rfl, rfl⟩ := List.append_inj (by simpa using hx : x ++ u = n.text ++ ['%'] ++ r)
      (by simpa using hlen.symm)
    refine ⟨trivial, fun v _ => ⟨hstart _ v, ?_⟩⟩
    have hv : n.EndsBefore ('%' :: v) := ⟨rfl, fun _ _ => rfl, fun _ => rfl⟩
    rw [List.append_assoc, List.singleton_append, numberAt_append (Numeral.read_append hn hv)]
    simp
  rename_i hpercent
  split at h
  · rename_i hname
    obtain ⟨name, rest, rfl, hnm⟩ := exists_nameAt rest
    rw [hnm] at h
    obtain ⟨rfl, hlen⟩ := Prod.mk.inj h
    obtain ⟨rfl, rfl⟩ := List.append_inj (by simpa using hx : x ++ u = n.text ++ name ++ rest)
      (by simpa using hlen.symm)
    simp only [Settled, List.drop_left, ← outlook_append, outlook_exponent]
    refine ⟨⟨keepsName_of_nameAt hname hnm, hend.exponent⟩, fun v hv => ⟨hstart _ v, ?_⟩⟩
    obtain ⟨hvname, hvnm⟩ := startsName_change hu hname hnm hv.1
    obtain ⟨hdigit, hpoint, hvpercent⟩ := not_number_of_startsName hvname
    have hvend : n.EndsBefore (name ++ v) :=
      endsBefore_iff.2 ⟨hdigit, fun _ _ => hpoint, fun he => outlook_exponent.2 (hv.2 he)⟩
    rw [List.append_assoc, numberAt_append (Numeral.read_append hn hvend), if_neg hvpercent, if_pos hvname, hvnm]
    simp
  · rename_i hname
    obtain ⟨rfl, hlen⟩ := Prod.mk.inj h
    obtain ⟨rfl, rfl⟩ := List.append_inj hx hlen.symm
    refine ⟨⟨endsBefore_iff.1 hend, by rwa [outlook_head], by simpa [outlook_name] using hname⟩, fun v hv => ?_⟩
    obtain ⟨hvend, hvpercent, hvname⟩ := hv
    rw [outlook_head] at hvpercent
    rw [outlook_name] at hvname
    have hread := Numeral.read_append hn (endsBefore_iff.2 hvend)
    refine ⟨Numeral.startsAt_text hn v, ?_⟩
    rw [numberAt_append hread, if_neg hvpercent, hvname]
    simp

/-! ## Names -/

/-- A url without quotes has an end of its own. -/
theorem settled_of_urlAt {s : List Char} {t : Token} {n : Nat} (h : urlAt s = .some (t, n)) (x : List Char)
    (o : Outlook) : Settled x t o := by
  obtain ⟨lead, path, tail, stop, rfl, hparts⟩ := exists_urlParts s
  rw [urlAt_append hparts] at h
  split at h
  · cases h
  obtain ⟨rfl, -⟩ := Prod.mk.inj (Option.some.inj h)
  cases stop with
  | nil => trivial
  | cons c cs =>
    simp only [urlStop]
    split <;> trivial

theorem nameTokenAt_before {x u : List Char} {t : Token} (hu : u ≠ []) (hs : startsName (x ++ u) = true)
    (harrow : x = ['-', '-'] → u.head? ≠ .some '>') (h : nameTokenAt (x ++ u) = (t, x.length)) :
    Settled x t (outlook u) ∧ ∀ v, Settled x t (outlook v) →
      startsName (x ++ v) = true ∧ nameTokenAt (x ++ v) = (t, x.length) := by
  obtain ⟨name, rest, hx, hname⟩ := exists_nameAt (x ++ u)
  rw [hx] at hname hs h
  by_cases hp : rest.head? = .some '('
  · obtain ⟨r, rfl⟩ := List.head?_eq_some_iff.1 hp
    have hkeeps := keepsName_of_nameAt hs hname
    have hv (w : List Char) : startsName (name ++ '(' :: w) = true ∧ nameAt (name ++ '(' :: w) = name :=
      startsName_change (List.cons_ne_nil _ _) hs hname (hkeeps.cons (by decide) w)
    rw [nameTokenAt_paren hname] at h
    by_cases hurl : (unescape false name).lowered = "url"
    · rw [if_pos hurl] at h
      split at h
      · rename_i t' n hfound
        obtain ⟨rfl, hlen⟩ := Prod.mk.inj h
        obtain ⟨y, r, rfl, rfl⟩ : ∃ y r', r = y ++ r' ∧ n = y.length :=
          ⟨r.take n, r.drop n, by simp, by simp [length_urlAt_le hfound]⟩
        obtain ⟨rfl, rfl⟩ := List.append_inj (by simpa using hx : x ++ u = (name ++ '(' :: y) ++ r)
          (by simp; omega)
        refine ⟨settled_of_urlAt hfound _ _, fun v _ => ?_⟩
        rw [List.append_assoc, List.cons_append, nameTokenAt_paren (hv (y ++ v)).2, if_pos hurl,
          urlAt_before hu hfound v]
        exact ⟨(hv (y ++ v)).1, congrArg (Prod.mk t') hlen⟩
      · rename_i hnone
        obtain ⟨rfl, hlen⟩ := Prod.mk.inj h
        obtain ⟨rfl, rfl⟩ := List.append_inj (by simpa using hx : x ++ u = name ++ ['('] ++ r)
          (by simpa using hlen.symm)
        refine ⟨fun _ => urlAt_eq_none_iff.1 hnone, fun v hquote => ?_⟩
        rw [List.append_assoc, List.singleton_append, nameTokenAt_paren (hv v).2, if_pos hurl,
          urlAt_eq_none_iff.2 (hquote hurl)]
        exact ⟨(hv v).1, by simp⟩
    · rw [if_neg hurl] at h
      obtain ⟨rfl, hlen⟩ := Prod.mk.inj h
      obtain ⟨rfl, rfl⟩ := List.append_inj (by simpa using hx : x ++ u = name ++ ['('] ++ r)
        (by simpa using hlen.symm)
      refine ⟨fun h => absurd h hurl, fun v _ => ?_⟩
      rw [List.append_assoc, List.singleton_append, nameTokenAt_paren (hv v).2, if_neg hurl]
      exact ⟨(hv v).1, by simp⟩
  · rw [nameTokenAt_ident hname hp] at h
    obtain ⟨rfl, hlen⟩ := Prod.mk.inj h
    obtain ⟨rfl, rfl⟩ := List.append_inj hx hlen.symm
    refine ⟨⟨keepsName_of_nameAt hs hname, by rwa [outlook_head], fun hx => by rw [outlook_head]; exact harrow hx⟩,
      fun v hv => ?_⟩
    obtain ⟨hvs, hvname⟩ := startsName_change hu hs hname hv.1
    have hvp := hv.2.1
    rw [outlook_head] at hvp
    exact ⟨hvs, nameTokenAt_ident hvname hvp⟩

/-! ## All tokens -/

/-- The characters that are more than themselves before some others. -/
def isTwofold (c : Char) : Bool :=
  c == '-' || c == '\\' || c == '#' || c == '@' || c == '/' || c == '<' || (matcher? c).isSome || isNameStart c

/-- Any other character is a delimiter wherever no number starts. -/
theorem Outlook.KeepsDelim.of_number {c : Char} {o : Outlook} (hc : isTwofold c = false)
    (hn : (o.step c).number = false) : o.KeepsDelim c := by
  simp only [isTwofold, Bool.or_eq_false_iff, beq_eq_false_iff_ne] at hc
  obtain ⟨⟨⟨⟨⟨⟨⟨hm, hb⟩, hh⟩, ha⟩, hs⟩, hl⟩, he⟩, hname⟩ := hc
  exact ⟨hn, by simp [Outlook.step, hm, hb, hname], fun h => absurd h hm, fun h => absurd h hh,
    fun h => absurd h ha, fun h => absurd h hs, fun h => absurd h hl, fun h => by simp [he] at h⟩

theorem Outlook.KeepsDelim.of_isSign {c : Char} {o : Outlook} (hc : isSign c = true)
    (he : (matcher? c).isSome = true → o.head ≠ .some '=') : o.KeepsDelim c := by
  simp only [isSign, Bool.not_eq_true', Bool.or_eq_false_iff, beq_eq_false_iff_ne] at hc
  obtain ⟨⟨⟨⟨⟨⟨⟨⟨⟨⟨⟨⟨-, -⟩, -⟩, hd⟩, hname⟩, hp⟩, hdot⟩, hm⟩, hb⟩, hh⟩, ha⟩, hs⟩, hl⟩ := hc
  exact ⟨by simp [Outlook.step, hd, hp, hdot, hm], by simp [Outlook.step, hm, hb, hname], fun h => absurd h hm,
    fun h => absurd h hh, fun h => absurd h ha, fun h => absurd h hs, fun h => absurd h hl, he⟩

theorem settled_matcher {c : Char} {t : Token} (h : matcher? c = .some t) (x : List Char) (o : Outlook) :
    Settled x t o := by
  have hsign := sign?_matcher h
  cases t with
  | delim | space | ident | function | atKeyword | hash | idHash | badString | number | dimension => cases hsign
  | _ => trivial

theorem settled_signToken {c : Char} (hc : isSign c = true) (hm : matcher? c = .none) (x : List Char) (o : Outlook) :
    Settled x (signToken c) o := by
  have hsign := sign?_signToken c
  generalize signToken c = t at hsign ⊢
  cases t with
  | delim d =>
    cases hsign
    exact .of_isSign hc fun h => by simp [hm] at h
  | space | ident | function | atKeyword | hash | idHash | badString | number | dimension => cases hsign
  | _ => trivial

theorem startsAt_eq_false_of_startsName {s : List Char} (h : startsName s = true) : Numeral.startsAt s = false := by
  cases s with
  | nil => rfl
  | cons c s =>
    have hfree := not_number_of_startsName h
    rw [← outlook_number]
    by_cases hm : c = '-'
    · subst hm
      cases s with
      | nil => rfl
      | cons d s =>
        have hd : isNameStart d = true ∨ d = '-' ∨ d = '\\' := by simpa [startsName, or_assoc] using h
        have hdigit : d.isDigit = false := by
          by_contra hc
          rw [Bool.not_eq_false] at hc
          rcases hd with hd | rfl | rfl
          · simp [isNameStart_of_isDigit hc] at hd
          · cases hc
          · cases hc
        have hdot : d ≠ '.' := by rintro rfl; rcases hd with hd | hd | hd <;> cases hd
        simp [Outlook.step, hdigit, hdot]
    · have hp : c ≠ '+' := by rintro rfl; simp [startsName, isNameStart] at h
      have hdot : c ≠ '.' := by rintro rfl; simp [startsName, isNameStart] at h
      have hd : c.isDigit = false := hfree.1
      simp [Outlook.step, hm, hp, hdot, hd]

/-- The name of a hash need not be one by itself. -/
theorem hashName_before {x u : List Char} (hs : startsName (x ++ u) = false)
    (hd : ((x ++ u).head?.any fun d => d.isDigit || d == '-') = true) (hx : nameAt (x ++ u) = x) :
    (x = ['-'] → (outlook u).head ≠ .some '\\') ∧
      ∀ v, (x = ['-'] → (outlook v).head ≠ .some '\\') → (outlook v).EndsName x →
        startsName (x ++ v) = false ∧ ((x ++ v).head?.any fun d => d.isDigit || d == '-') = true ∧
          nameAt (x ++ v) = x := by
  have hend := nameEnds_iff.1 (nameEnds_of_nameAt hx)
  rcases x with _ | ⟨d, x⟩
  · -- a digit or a hyphen would go on with the empty name
    exfalso
    cases u with
    | nil => simp at hd
    | cons d u =>
      have hchar := (hend d rfl).2
      have hb : d ≠ '\\' := by rintro rfl; simp at hd
      rw [if_neg hb] at hchar
      simp only [isNameChar, Bool.or_eq_false_iff] at hchar
      simp [hchar] at hd
  · have hd' : (d.isDigit || d == '-') = true := hd
    refine ⟨?_, fun v hmark hv => ⟨?_, hd', nameAt_change hx (nameEnds_iff.2 hv)⟩⟩
    · intro h hhead
      obtain ⟨rfl, rfl⟩ := List.cons.inj h
      rw [outlook_head] at hhead
      simp [startsName, hhead] at hs
    by_cases hm : d = '-'
    · subst hm
      rcases x with _ | ⟨e, x⟩
      · have hfree : v.head?.any (fun d => isNameStart d || d == '-' || d == '\\') = false := by
          cases v with
          | nil => rfl
          | cons e v =>
            have hb : e ≠ '\\' := fun h => hmark rfl (congrArg some h)
            have hchar := (hv e rfl).2
            rw [if_neg hb] at hchar
            simp only [isNameChar, Bool.or_eq_false_iff] at hchar
            simp [hchar, hb]
        simpa [startsName] using hfree
      · simpa [startsName] using hs
    · have hdigit : d.isDigit = true := by simpa [hm] using hd'
      rw [List.cons_append, startsName_of_ne _ hm (isDigit_ne hdigit rfl)]
      exact isNameStart_of_isDigit hdigit

/-- The mark `-->` is not a name. -/
theorem nameTokenAt_arrow (w : List Char) :
    nameTokenAt ('-' :: '-' :: '>' :: w) = (.ident (unescape false ['-', '-']), 2) :=
  @nameTokenAt_ident ['-', '-'] ('>' :: w) rfl (by simp)

theorem startsAt_step (c : Char) (u : List Char) : ((outlook u).step c).number = Numeral.startsAt (c :: u) :=
  outlook_number (c :: u)

theorem startsName_step (c : Char) (u : List Char) : ((outlook u).step c).name = startsName (c :: u) :=
  outlook_name (c :: u)

/-! ## By the first character -/

/-- What is read after the first character before one text is settled by it, and
is read before every other text that settles it. -/
def ReadsOn (c : Char) (f : List Char → Token × Nat) : Prop :=
  ∀ (cs u : List Char) (t : Token), u ≠ [] → f (cs ++ u) = (t, cs.length + 1) →
    Settled (c :: cs) t (outlook u) ∧ ∀ v, Settled (c :: cs) t (outlook v) → f (cs ++ v) = (t, cs.length + 1)

/-- A token of one character. -/
theorem eq_of_single {s t : Token} {cs : List Char} (h : (s, 1) = (t, cs.length + 1)) : t = s ∧ cs = [] := by
  obtain ⟨rfl, hlen⟩ := Prod.mk.inj h
  exact ⟨rfl, List.length_eq_zero_iff.1 (by omega)⟩

/-- A token of a mark and a name. -/
theorem eq_of_named {s t : Token} {cs u : List Char} (h : (s, 1 + (nameAt (cs ++ u)).length) = (t, cs.length + 1)) :
    t = s ∧ nameAt (cs ++ u) = cs := by
  obtain ⟨rfl, hlen⟩ := Prod.mk.inj h
  obtain ⟨rest, hrest⟩ := nameAt_isPrefix (cs ++ u)
  exact ⟨rfl, (List.append_inj hrest (by omega)).1⟩

theorem readsOn_space (c : Char) : ReadsOn c fun cs => (.space, 1 + (cs.takeWhile isSpace).length) := by
  intro cs u t hu h
  obtain ⟨rfl, hlen⟩ := Prod.mk.inj h
  have hcut : ((cs ++ u).takeWhile isSpace).length = cs.length := by omega
  simp only [Settled, outlook_head]
  refine ⟨(takeWhile_space_before (v := []) hcut).1, fun v hv => ?_⟩
  rw [(takeWhile_space_before hcut).2 hv, Nat.add_comm]

theorem readsOn_quote {c : Char} (hc : c = '"' ∨ c = '\'') :
    ReadsOn c fun cs => ((stringAt c cs).1, 1 + (stringAt c cs).2) := by
  intro cs u t hu h
  have hstring : stringAt c (cs ++ u) = (t, cs.length) := by
    obtain ⟨rfl, hlen⟩ := Prod.mk.inj h
    exact Prod.ext rfl (by simp only; omega)
  rcases stringAt_before hc hu hstring with ⟨value, rfl, hv⟩ | ⟨value, rfl, hnl, hv⟩
  · exact ⟨trivial, fun v _ => by simp only [hv v, Nat.add_comm]⟩
  · simp only [Settled, outlook_head, List.tail_cons]
    refine ⟨hnl, ?_⟩
    rintro v ⟨d, hd, hdn, hfresh⟩
    simp only [hv v d hd hdn hfresh, Nat.add_comm]

theorem readsOn_digit {c : Char} (hc : c.isDigit = true) : ReadsOn c fun cs => numberAt (c :: cs) := by
  intro cs u t hu h
  have hs : Numeral.startsAt (c :: (cs ++ u)) = true := by
    simp [Numeral.startsAt_of_ne _ (isDigit_ne hc rfl) (isDigit_ne hc rfl), hc]
  obtain ⟨h1, h2⟩ := numberAt_before (x := c :: cs) hu hs h
  exact ⟨h1, fun v hv => (h2 v hv).2⟩

theorem readsOn_name {c : Char} (hc : isNameStart c = true) : ReadsOn c fun cs => nameTokenAt (c :: cs) := by
  intro cs u t hu h
  have hs : startsName (c :: (cs ++ u)) = true := by
    rw [startsName_of_ne _ (isNameStart_ne hc rfl) (isNameStart_ne hc rfl), hc]
  have hne : c :: cs ≠ ['-', '-'] := fun h => isNameStart_ne hc rfl (List.cons.inj h).1
  obtain ⟨h1, h2⟩ := nameTokenAt_before (x := c :: cs) hu hs (fun h => absurd h hne) h
  exact ⟨h1, fun v hv => (h2 v hv).2⟩

/-- A plus sign or a point, which begins a number or is a delimiter. -/
theorem readsOn_number {c : Char} (hc : isTwofold c = false) :
    ReadsOn c fun cs => if Numeral.startsAt (c :: cs) then numberAt (c :: cs) else (.delim c, 1) := by
  intro cs u t hu h
  beta_reduce at h ⊢
  by_cases hs : Numeral.startsAt (c :: (cs ++ u)) = true
  · rw [if_pos hs] at h
    obtain ⟨h1, h2⟩ := numberAt_before (x := c :: cs) hu hs h
    simp only [List.cons_append] at h2
    refine ⟨h1, fun v hv => ?_⟩
    rw [if_pos (h2 v hv).1]
    exact (h2 v hv).2
  · rw [if_neg hs] at h
    obtain ⟨rfl, rfl⟩ := eq_of_single h
    rw [Bool.not_eq_true] at hs
    refine ⟨.of_number hc (startsAt_step c u ▸ hs), fun v hv => ?_⟩
    rw [if_neg (by rw [Bool.not_eq_true]; exact startsAt_step c v ▸ hv.number)]
    rfl

/-- Where `-->` is not read, a name that begins with a hyphen makes none. -/
theorem not_arrow_of_nameTokenAt {cs v : List Char} {t : Token}
    (h : nameTokenAt ('-' :: (cs ++ v)) = (t, ('-' :: cs).length)) (hv : Settled ('-' :: cs) t (outlook v)) :
    (cs ++ v).take 2 ≠ ['-', '>'] := by
  intro hv2
  obtain ⟨w, hw⟩ : ['-', '>'] <+: cs ++ v := hv2 ▸ List.take_prefix 2 (cs ++ v)
  simp only [List.cons_append, List.nil_append] at hw
  rw [← hw, nameTokenAt_arrow] at h
  obtain ⟨rfl, hlen⟩ := Prod.mk.inj h
  obtain ⟨d, rfl⟩ := List.length_eq_one_iff.1 (by simpa using hlen.symm : cs.length = 1)
  obtain ⟨rfl, rfl⟩ := List.cons.inj hw
  exact hv.2.2 rfl rfl

/-- A hyphen, which begins a number, the mark `-->` or a name, or is a
delimiter. -/
theorem readsOn_hyphen : ReadsOn '-' fun cs =>
    if Numeral.startsAt ('-' :: cs) then numberAt ('-' :: cs)
    else if cs.take 2 = ['-', '>'] then (.commentClose, 3)
    else if startsName ('-' :: cs) then nameTokenAt ('-' :: cs)
    else (.delim '-', 1) := by
  intro cs u t hu h
  beta_reduce at h ⊢
  by_cases hs : Numeral.startsAt ('-' :: (cs ++ u)) = true
  · rw [if_pos hs] at h
    obtain ⟨h1, h2⟩ := numberAt_before (x := '-' :: cs) hu hs h
    simp only [List.cons_append] at h2
    refine ⟨h1, fun v hv => ?_⟩
    rw [if_pos (h2 v hv).1]
    exact (h2 v hv).2
  rw [if_neg hs] at h
  by_cases harrow : (cs ++ u).take 2 = ['-', '>']
  · rw [if_pos harrow] at h
    obtain ⟨rfl, hlen⟩ := Prod.mk.inj h
    have hcs : cs = ['-', '>'] := by rw [← harrow, show 2 = cs.length by omega, List.take_left]
    subst hcs
    exact ⟨trivial, fun v _ => rfl⟩
  rw [if_neg harrow] at h
  by_cases hname : startsName ('-' :: (cs ++ u)) = true
  · rw [if_pos hname] at h
    have hgreater : '-' :: cs = ['-', '-'] → u.head? ≠ .some '>' := by
      intro hx hhead
      obtain ⟨w, rfl⟩ := List.head?_eq_some_iff.1 hhead
      cases hx
      exact harrow rfl
    obtain ⟨h1, h2⟩ := nameTokenAt_before (x := '-' :: cs) hu hname hgreater h
    simp only [List.cons_append] at h2
    refine ⟨h1, fun v hv => ?_⟩
    obtain ⟨hvname, hvtoken⟩ := h2 v hv
    rw [if_neg (by rw [Bool.not_eq_true]; exact startsAt_eq_false_of_startsName hvname),
      if_neg (not_arrow_of_nameTokenAt hvtoken hv), if_pos hvname]
    exact hvtoken
  · rw [if_neg hname] at h
    obtain ⟨rfl, rfl⟩ := eq_of_single h
    rw [Bool.not_eq_true] at hs hname
    refine ⟨⟨startsAt_step '-' u ▸ hs, startsName_step '-' u ▸ hname, fun _ => ?_, by simp, by simp, by simp, by simp,
      by simp [matcher?]⟩, fun v hv => ?_⟩
    · rw [← Bool.not_eq_true, outlook_arrow]
      exact harrow
    · have hvarrow := hv.arrow rfl
      rw [← Bool.not_eq_true, outlook_arrow] at hvarrow
      rw [List.nil_append, if_neg (by rw [Bool.not_eq_true]; exact startsAt_step '-' v ▸ hv.number), if_neg hvarrow,
        if_neg (by rw [Bool.not_eq_true]; exact startsName_step '-' v ▸ hv.name), List.length_nil]

/-- A backslash, which begins a name or is a delimiter. -/
theorem readsOn_backslash : ReadsOn '\\' fun cs =>
    if startsName ('\\' :: cs) then nameTokenAt ('\\' :: cs) else (.delim '\\', 1) := by
  intro cs u t hu h
  beta_reduce at h ⊢
  by_cases hname : startsName ('\\' :: (cs ++ u)) = true
  · rw [if_pos hname] at h
    obtain ⟨h1, h2⟩ := nameTokenAt_before (x := '\\' :: cs) hu hname (by simp) h
    simp only [List.cons_append] at h2
    refine ⟨h1, fun v hv => ?_⟩
    rw [if_pos (h2 v hv).1]
    exact (h2 v hv).2
  · rw [if_neg hname] at h
    obtain ⟨rfl, rfl⟩ := eq_of_single h
    rw [Bool.not_eq_true] at hname
    refine ⟨⟨rfl, startsName_step '\\' u ▸ hname, by simp, by simp, by simp, by simp, by simp, by simp [matcher?]⟩,
      fun v hv => ?_⟩
    rw [if_neg (by rw [Bool.not_eq_true]; exact startsName_step '\\' v ▸ hv.name)]
    rfl

/-- A hash sign: of a name, of what only goes on as a name, or by itself. -/
theorem readsOn_hashSign : ReadsOn '#' fun cs =>
    if startsName cs then (.idHash (unescape false (nameAt cs)), 1 + (nameAt cs).length)
    else if cs.head?.any fun d => d.isDigit || d == '-' then
      (.hash (unescape false (nameAt cs)), 1 + (nameAt cs).length)
    else (.delim '#', 1) := by
  intro cs u t hu h
  beta_reduce at h ⊢
  by_cases hname : startsName (cs ++ u) = true
  · rw [if_pos hname] at h
    obtain ⟨rfl, hnm⟩ := eq_of_named h
    refine ⟨keepsName_of_nameAt hname hnm, fun v hv => ?_⟩
    obtain ⟨hvname, hvnm⟩ := startsName_change hu hname hnm hv
    rw [if_pos hvname, hvnm, hnm, Nat.add_comm]
  rw [if_neg hname] at h
  by_cases hdigit : ((cs ++ u).head?.any fun d => d.isDigit || d == '-') = true
  · rw [if_pos hdigit] at h
    obtain ⟨rfl, hnm⟩ := eq_of_named h
    rw [Bool.not_eq_true] at hname
    obtain ⟨hmark, hv⟩ := hashName_before hname hdigit hnm
    refine ⟨⟨hmark, nameEnds_iff.1 (nameEnds_of_nameAt hnm)⟩, fun v hvs => ?_⟩
    obtain ⟨hvname, hvdigit, hvnm⟩ := hv v hvs.1 hvs.2
    rw [if_neg (by rw [Bool.not_eq_true]; exact hvname), if_pos hvdigit, hvnm, hnm, Nat.add_comm]
  · rw [if_neg hdigit] at h
    obtain ⟨rfl, rfl⟩ := eq_of_single h
    rw [Bool.not_eq_true] at hname hdigit
    refine ⟨⟨rfl, rfl, by simp, fun _ => ⟨by rw [outlook_name]; exact hname, by rw [outlook_head]; exact hdigit⟩,
      by simp, by simp, by simp, by simp [matcher?]⟩, fun v hv => ?_⟩
    obtain ⟨hvname, hvdigit⟩ := hv.hash rfl
    rw [outlook_name] at hvname
    rw [outlook_head] at hvdigit
    simp [hvname, hvdigit]

/-- An at sign, of a name or by itself. -/
theorem readsOn_atSign : ReadsOn '@' fun cs =>
    if startsName cs then (.atKeyword (unescape false (nameAt cs)), 1 + (nameAt cs).length) else (.delim '@', 1) := by
  intro cs u t hu h
  beta_reduce at h ⊢
  by_cases hname : startsName (cs ++ u) = true
  · rw [if_pos hname] at h
    obtain ⟨rfl, hnm⟩ := eq_of_named h
    refine ⟨keepsName_of_nameAt hname hnm, fun v hv => ?_⟩
    obtain ⟨hvname, hvnm⟩ := startsName_change hu hname hnm hv
    rw [if_pos hvname, hvnm, hnm, Nat.add_comm]
  · rw [if_neg hname] at h
    obtain ⟨rfl, rfl⟩ := eq_of_single h
    rw [Bool.not_eq_true] at hname
    refine ⟨⟨rfl, rfl, by simp, by simp, fun _ => by rw [outlook_name]; exact hname, by simp, by simp,
      by simp [matcher?]⟩, fun v hv => ?_⟩
    have hvname := hv.atSign rfl
    rw [outlook_name] at hvname
    simp [hvname]

/-- A slash, which begins a comment or is a delimiter. -/
theorem readsOn_slash : ReadsOn '/' fun cs =>
    if cs.head? = .some '*' then (.comment, 2 + (commentBody cs.tail).length) else (.delim '/', 1) := by
  intro cs u t hu h
  beta_reduce at h ⊢
  by_cases hstar : (cs ++ u).head? = .some '*'
  · rw [if_pos hstar] at h
    obtain ⟨rfl, hlen⟩ := Prod.mk.inj h
    rcases cs with _ | ⟨d, cs⟩
    · simp only [List.length_nil] at hlen
      omega
    · rw [List.cons_append, List.head?_cons] at hstar
      simp only [List.cons_append, List.tail_cons, List.length_cons, List.head?_cons, hstar, if_true] at hlen ⊢
      refine ⟨trivial, fun v _ => ?_⟩
      rw [commentBody_before hu (by omega) v, Prod.mk.injEq]
      exact ⟨rfl, by omega⟩
  · rw [if_neg hstar] at h
    obtain ⟨rfl, rfl⟩ := eq_of_single h
    refine ⟨⟨rfl, rfl, by simp, by simp, by simp, fun _ => by rw [outlook_head]; exact hstar, by simp,
      by simp [matcher?]⟩, fun v hv => ?_⟩
    have hvstar := hv.star rfl
    rw [outlook_head] at hvstar
    rw [List.nil_append, if_neg hvstar, List.length_nil]

/-- A less-than sign, which begins the mark `<!--` or is a delimiter. -/
theorem readsOn_less : ReadsOn '<' fun cs =>
    if cs.take 3 = ['!', '-', '-'] then (.commentOpen, 4) else (.delim '<', 1) := by
  intro cs u t hu h
  beta_reduce at h ⊢
  by_cases hbang : (cs ++ u).take 3 = ['!', '-', '-']
  · rw [if_pos hbang] at h
    obtain ⟨rfl, hlen⟩ := Prod.mk.inj h
    have hcs : cs = ['!', '-', '-'] := by rw [← hbang, show 3 = cs.length by omega, List.take_left]
    subst hcs
    exact ⟨trivial, fun v _ => rfl⟩
  · rw [if_neg hbang] at h
    obtain ⟨rfl, rfl⟩ := eq_of_single h
    refine ⟨⟨rfl, rfl, by simp, by simp, by simp, by simp, fun _ => ?_, by simp [matcher?]⟩, fun v hv => ?_⟩
    · rw [← Bool.not_eq_true, outlook_bang]
      exact hbang
    · have hvbang := hv.bang rfl
      rw [← Bool.not_eq_true, outlook_bang] at hvbang
      rw [List.nil_append, if_neg hvbang, List.length_nil]

theorem readsOn_sign {c : Char} (hc : isSign c = true) : ReadsOn c fun cs =>
    match matcher? c with
    | .some t => if cs.head? = .some '=' then (t, 2) else (.delim c, 1)
    | .none => (signToken c, 1) := by
  intro cs u t hu h
  beta_reduce at h ⊢
  cases hm : matcher? c with
  | none =>
    simp only [hm] at h ⊢
    obtain ⟨rfl, rfl⟩ := eq_of_single h
    exact ⟨settled_signToken hc hm _ _, fun v _ => rfl⟩
  | some s =>
    simp only [hm] at h ⊢
    by_cases he : (cs ++ u).head? = .some '='
    · rw [if_pos he] at h
      obtain ⟨rfl, hlen⟩ := Prod.mk.inj h
      obtain ⟨d, rfl⟩ := List.length_eq_one_iff.1 (by omega : cs.length = 1)
      rw [List.singleton_append, List.head?_cons] at he
      exact ⟨settled_matcher hm _ _, fun v _ => by simp [he]⟩
    · rw [if_neg he] at h
      obtain ⟨rfl, rfl⟩ := eq_of_single h
      refine ⟨.of_isSign hc fun _ => by rw [outlook_head]; exact he, fun v hv => ?_⟩
      have hve := hv.equals (by rw [hm]; rfl)
      rw [outlook_head] at hve
      rw [List.nil_append, if_neg hve, List.length_nil]

theorem readsOn_tokenAt (c : Char) : ReadsOn c (tokenAt c) := by
  have hlead := leads_tokenAt c
  generalize tokenAt c = f at *
  cases hlead with
  | space => exact readsOn_space c
  | quote hc => exact readsOn_quote hc
  | digit hc => exact readsOn_digit hc
  | name hc => exact readsOn_name hc
  | plus => exact readsOn_number rfl
  | dot => exact readsOn_number rfl
  | hyphen => exact readsOn_hyphen
  | backslash => exact readsOn_backslash
  | hashSign => exact readsOn_hashSign
  | atSign => exact readsOn_atSign
  | slash => exact readsOn_slash
  | less => exact readsOn_less
  | sign hc => exact readsOn_sign hc

/-! ## Tokens before other texts -/

section

variable {x u v : List Char} {t : Token}

/-- What is read before a text is settled by it. -/
theorem Reads.settled (h : Reads x u t) (hu : u ≠ []) : Settled x t (outlook u) := by
  obtain ⟨c, cs, rfl, h⟩ := h
  exact (readsOn_tokenAt c cs u t hu h).1

/-- What is read before a text is read before every text that settles it. -/
theorem Reads.change (h : Reads x u t) (hu : u ≠ []) (hv : Settled x t (outlook v)) : Reads x v t := by
  obtain ⟨c, cs, rfl, h⟩ := h
  exact ⟨c, cs, rfl, (readsOn_tokenAt c cs u t hu h).2 v hv⟩

theorem ne_nil_of_outlook (hu : u ≠ []) (ho : outlook u = outlook v) : v ≠ [] := by
  rintro rfl
  have hhead := congrArg Outlook.head ho
  rw [outlook_head, outlook_head, List.head?_nil, List.head?_eq_none_iff] at hhead
  exact hu hhead

/-- Texts with one outlook have the same tokens before them. -/
theorem Reads.congr (h : Reads x u t) (ho : outlook u = outlook v) : Reads x v t := by
  by_cases hu : u = []
  · subst hu
    have hv : v = [] := by
      by_contra hv
      exact ne_nil_of_outlook hv ho.symm rfl
    rwa [hv]
  · exact h.change hu (ho ▸ h.settled hu)

end

end ThemeVars
