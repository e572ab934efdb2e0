/-
Texts pasted between tokens. `Reads.paste`: a token before a name is read as it
was before another name, and what stands before it sees no difference.
-/
import ThemeVars.Proofs.Token.Name
import ThemeVars.Proofs.Token.Settled

namespace ThemeVars

open Text

/-- A name that follows would go on with the token. -/
def Token.glues : Token → Bool
  | .ident _ => true
  | .number _ => true
  | .dimension _ _ => true
  | .hash _ => true
  | .idHash _ => true
  | .atKeyword _ => true
  | .delim c => c == '-' || c == '#' || c == '@'
  | _ => false

namespace Outlook

/-! ## Outlooks that look the same from further away -/

/-- The outlooks differ at most in what only the token before them looks at. -/
structure Akin (o o' : Outlook) : Prop where
  digit : o.head.any Char.isDigit = o'.head.any Char.isDigit
  point : o.point = o'.point
  signed : o.signed = o'.signed
  dashes : o.dashes = o'.dashes
  quote : o.quote = o'.quote

theorem Akin.step {o o' : Outlook} (h : Akin o o') {c : Char} (hm : c ≠ '-') (hb : c ≠ '\\') : o.step c = o'.step c := by
  rw [← beq_eq_false_iff_ne] at hm hb
  simp [Outlook.step, h.digit, h.point, h.signed, h.dashes, h.quote, hm, hb]

/-- Whatever stands after it, the character looks the same. -/
def blocks (c : Char) : Bool :=
  !(c == '-' || c == '\\' || c == '.' || c == '+' || c == 'e' || c == 'E' || c == '!' || isSpace c)

theorem step_of_blocks {c : Char} (hc : blocks c = true) (o o' : Outlook) : o.step c = o'.step c := by
  simp only [blocks, Bool.not_eq_true', Bool.or_eq_false_iff] at hc
  simp [Outlook.step, hc]

theorem blocks_of_isQuote {q : Char} (h : isQuote q = true) : blocks q = true := by
  rw [isQuote, Bool.or_eq_true, beq_iff_eq, beq_iff_eq] at h
  rcases h with rfl | rfl <;> rfl

theorem through_append (x y : List Char) (o : Outlook) : o.through (x ++ y) = (o.through y).through x :=
  List.foldr_append

theorem through_of_blocks {x : List Char} {c : Char} (hx : c ∈ x) (hc : blocks c = true) (o o' : Outlook) :
    o.through x = o'.through x := by
  obtain ⟨a, b, rfl⟩ := List.append_of_mem hx
  rw [through_append, through_append, through_cons, through_cons, step_of_blocks hc]

end Outlook

/-! ## Tokens that nothing is seen through -/

/-- A word that ends with a mark of its own. -/
def Token.isClosedWord : Token → Bool
  | .function _ => true
  | .url _ => true
  | .badUrl _ => true
  | .percentage _ => true
  | .string _ => true
  | .badString _ => true
  | _ => false

theorem paren_mem_nameTokenAt {s : List Char} (h : (nameTokenAt s).1.isClosedWord = true) :
    '(' ∈ s.take (nameTokenAt s).2 := by
  obtain ⟨name, rest, rfl, hname⟩ := exists_nameAt s
  by_cases hp : rest.head? = .some '('
  · obtain ⟨r, rfl⟩ := List.head?_eq_some_iff.1 hp
    have hlen : name.length + 1 ≤ (nameTokenAt (name ++ '(' :: r)).2 := by
      rw [nameTokenAt_paren hname]
      split
      · split
        · simp only
          omega
        · exact Nat.le_refl _
      · exact Nat.le_refl _
    have hprefix := List.take_prefix_take_left (l := name ++ '(' :: r) hlen
    refine hprefix.subset ?_
    rw [List.take_append]
    simp
  · rw [nameTokenAt_ident hname hp] at h
    cases h

theorem percent_mem_numberAt {s : List Char} (h : (numberAt s).1.isClosedWord = true) :
    '%' ∈ s.take (numberAt s).2 := by
  simp only [numberAt] at h ⊢
  split
  · rename_i hp
    rw [beq_iff_eq, List.head?_drop] at hp
    rw [List.take_add_one, hp]
    simp
  · rename_i hp
    rw [if_neg hp] at h
    split at h <;> cases h

theorem isWord_of_isClosedWord {t : Token} (h : t.isClosedWord = true) : t.isWord = true := by
  cases t <;> first | rfl | cases h

theorem Reads.word_blocks {x u : List Char} {t : Token} (h : Reads x u t) (ht : t.isClosedWord = true) :
    ∃ c ∈ x, Outlook.blocks c = true := by
  have htake : x = (x ++ u).take x.length := by simp
  rcases h.word_cases (isWord_of_isClosedWord ht) with ⟨q, cs, rfl, hq, -⟩ | ⟨-, hn⟩ | ⟨-, hn⟩
  · exact ⟨q, List.mem_cons_self, Outlook.blocks_of_isQuote hq⟩
  · have hmem := percent_mem_numberAt (s := x ++ u) (by rw [hn]; exact ht)
    rw [hn, ← htake] at hmem
    exact ⟨'%', hmem, rfl⟩
  · have hmem := paren_mem_nameTokenAt (s := x ++ u) (by rw [hn]; exact ht)
    rw [hn, ← htake] at hmem
    exact ⟨'(', hmem, rfl⟩

/-- A token that is not glued to what follows hides it, unless it is space or a
delimiter. -/
theorem Reads.blocks {x u : List Char} {t : Token} (h : Reads x u t) (hg : t.glues = false) (hs : t ≠ .space)
    (hd : ∀ c, t ≠ .delim c) : ∃ c ∈ x, Outlook.blocks c = true := by
  have hsign {sign : List Char} {c : Char} (ht : t.sign? = .some sign) (hc : c ∈ sign)
      (hb : Outlook.blocks c = true) : ∃ c ∈ x, Outlook.blocks c = true := ⟨c, h.sign ht ▸ hc, hb⟩
  cases t with
  | space => exact absurd rfl hs
  | delim c => exact absurd rfl (hd c)
  | comment => exact ⟨'/', h.lead.subset (by simp [Token.lead]), rfl⟩
  | lineComment => exact ⟨'/', h.lead.subset (by simp [Token.lead]), rfl⟩
  | ident | number | dimension | hash | idHash | atKeyword => cases hg
  | function | url | badUrl | percentage | string | badString => exact h.word_blocks rfl
  | colon => exact hsign (c := ':') rfl (by simp) rfl
  | semicolon => exact hsign (c := ';') rfl (by simp) rfl
  | comma => exact hsign (c := ',') rfl (by simp) rfl
  | includeMatch | dashMatch | prefixMatch | suffixMatch | substringMatch =>
    exact hsign (c := '=') rfl (by simp) rfl
  | commentOpen => exact hsign (c := '<') rfl (by simp) rfl
  | commentClose => exact hsign (c := '>') rfl (by simp) rfl
  | opening b => cases b <;> exact hsign rfl (List.mem_singleton.2 rfl) rfl
  | closing b => cases b <;> exact hsign rfl (List.mem_singleton.2 rfl) rfl

/-! ## Names in the place of names -/

/-- What a name begins with. -/
theorem head_of_startsName {c : Char} {s : List Char} (h : startsName (c :: s) = true) :
    c = '-' ∨ c = '\\' ∨ isNameStart c = true := by
  by_cases hm : c = '-'
  · exact .inl hm
  · by_cases hb : c = '\\'
    · exact .inr (.inl hb)
    · rw [startsName_of_ne s hm hb] at h
      exact .inr (.inr h)

theorem startsName_ne {c d : Char} {s : List Char} (h : startsName (c :: s) = true)
    (hd : isNameStart d = false ∧ d ≠ '-' ∧ d ≠ '\\') : c ≠ d := by
  rintro rfl
  rcases head_of_startsName h with hc | hc | hc
  · exact hd.2.1 hc
  · exact hd.2.2 hc
  · rw [hc] at hd
    cases hd.1

theorem isSpace_of_startsName {c : Char} {s : List Char} (h : startsName (c :: s) = true) : isSpace c = false := by
  by_contra hs
  rw [Bool.not_eq_false, isSpace_iff] at hs
  rcases hs with rfl | rfl | rfl | rfl | rfl <;> exact startsName_ne h (by decide) rfl

theorem isDigit_of_startsName {c : Char} {s : List Char} (h : startsName (c :: s) = true) : c.isDigit = false := by
  rcases head_of_startsName h with rfl | rfl | hc
  · rfl
  · rfl
  · by_contra hd
    rw [Bool.not_eq_false] at hd
    rw [isNameStart_of_isDigit hd] at hc
    cases hc

theorem isNewline_of_isSpace {c : Char} (h : isSpace c = false) : isNewline c = false := by
  simp only [isSpace, Bool.or_eq_false_iff] at h
  exact h.2

section

variable {x u v : List Char} {c : Char} {t : Token}

/-- Nothing that is seen from further away begins here, save two hyphens. -/
structure Outlook.Free (o : Outlook) : Prop where
  digit : o.head.any Char.isDigit = false
  point : o.point = false
  signed : o.signed = false
  quote : o.quote = false

theorem Outlook.Free.akin {o o' : Outlook} (h : o.Free) (h' : o'.Free) (hd : o.dashes = o'.dashes) : Akin o o' :=
  ⟨by rw [h.digit, h'.digit], by rw [h.point, h'.point], by rw [h.signed, h'.signed], hd, by rw [h.quote, h'.quote]⟩

theorem free_of_startsName (h : startsName u = true) : (outlook u).Free := by
  obtain ⟨c, u, rfl⟩ := List.exists_cons_of_ne_nil (show u ≠ [] by rintro rfl; cases h)
  have hdot : c ≠ '.' := startsName_ne h (by decide)
  have hplus : c ≠ '+' := startsName_ne h (by decide)
  have hquote : isQuote c = false := by
    have h1 : c ≠ '"' := startsName_ne h (by decide)
    have h2 : c ≠ '\'' := startsName_ne h (by decide)
    simp [isQuote, h1, h2]
  -- after a hyphen comes no digit
  have hsigned : (c == '-' && (outlook u).head.any Char.isDigit) = false := by
    by_cases hm : c = '-'
    · subst hm
      have hname : (outlook u).head.any (fun d => isNameStart d || d == '-' || d == '\\') = true := by
        rw [outlook_head]
        exact h
      rw [Option.any_eq_true] at hname
      obtain ⟨d, hd, hname⟩ := hname
      simp only [Bool.or_eq_true, beq_iff_eq] at hname
      rw [hd]
      rcases hname with (hname | rfl) | rfl
      · by_contra hdigit
        rw [isNameStart_of_isDigit (by simpa using hdigit)] at hname
        cases hname
      · rfl
      · rfl
    · simp [hm]
  refine ⟨?_, ?_, ?_, ?_⟩
  · simpa [Outlook.step] using isDigit_of_startsName h
  · simp [Outlook.step, hdot]
  · simpa [Outlook.step, hplus] using hsigned
  · simp [Outlook.step, isSpace_of_startsName h, hquote]

/-- Before what is no space, a delimiter is no backslash. -/
theorem Outlook.KeepsDelim.ne_backslash {d : Char} (h : (outlook u).KeepsDelim d) (hu : u ≠ [])
    (hs : u.head?.any isSpace = false) : d ≠ '\\' := by
  rintro rfl
  obtain ⟨c, u, rfl⟩ := List.exists_cons_of_ne_nil hu
  have hname := h.name
  simp only [List.head?_cons, Option.any_some] at hs
  simp [Outlook.step, isNewline_of_isSpace hs] at hname

/-- Where a name follows as a token of its own, nothing is glued to it. -/
theorem Reads.glues_eq_false (h : Reads x u t) (hu : startsName u = true) : t.glues = false := by
  obtain ⟨c, u, rfl⟩ := List.exists_cons_of_ne_nil (show u ≠ [] by rintro rfl; cases hu)
  have hsettled := h.settled (List.cons_ne_nil _ _)
  have hname : (outlook (c :: u)).name = true := by rw [outlook_name, hu]
  have hhead := head_of_startsName hu
  have hends (y : List Char) : ¬ (outlook (c :: u)).EndsName y := by
    intro hend
    have := (hend c rfl).2
    split at this
    · rw [hname] at this
      cases this
    · rename_i hb
      rcases hhead with rfl | rfl | hstart
      · cases this
      · exact hb rfl
      · simp [isNameChar, hstart] at this
  cases t with
  | ident => exact absurd hsettled.1.2 (hends _)
  | number =>
    have := hsettled.2.2
    rw [hname] at this
    cases this
  | dimension => exact absurd hsettled.1.2 (hends _)
  | hash => exact absurd hsettled.2 (hends _)
  | idHash => exact absurd hsettled.2 (hends _)
  | atKeyword => exact absurd hsettled.2 (hends _)
  | delim e =>
    have hkeeps : (outlook (c :: u)).KeepsDelim e := hsettled
    have hm : e ≠ '-' := by
      rintro rfl
      have hstep := hkeeps.name
      rcases hhead with rfl | rfl | hc
      · cases hstep
      · cases hstep
      · simp [Outlook.step, hc] at hstep
    have hh : e ≠ '#' := by
      rintro rfl
      have := (hkeeps.hash rfl).1
      rw [hname] at this
      cases this
    have ha : e ≠ '@' := by
      rintro rfl
      have := hkeeps.atSign rfl
      rw [hname] at this
      cases this
    simp [Token.glues, hm, hh, ha]
  | _ => rfl

/-- A token that is not glued to what follows is read before a name as it is
before anything that looks like one from further away. -/
theorem Reads.before_name (h : Reads x u t) (hu : u ≠ []) (hs : u.head?.any isSpace = false) (hg : t.glues = false)
    (hv : startsName v = true) (hakin : Outlook.Akin (outlook u) (outlook v)) : Reads x v t := by
  have hsettled := h.settled hu
  obtain ⟨d, v, rfl⟩ := List.exists_cons_of_ne_nil (show v ≠ [] by rintro rfl; cases hv)
  refine h.change hu ?_
  cases t with
  | space => simp [Settled, isSpace_of_startsName hv]
  | ident | number | dimension | hash | idHash | atKeyword => cases hg
  | function name =>
    intro hurl
    rw [← hakin.quote]
    exact hsettled hurl
  | badString value =>
    obtain ⟨e, he, hnl, -⟩ := hsettled
    rw [outlook_head] at he
    rw [he, Option.any_some] at hs
    rw [isNewline_of_isSpace hs] at hnl
    cases hnl
  | delim e =>
    have hkeeps : (outlook u).KeepsDelim e := hsettled
    have hb := hkeeps.ne_backslash hu hs
    simp only [Token.glues, Bool.or_eq_false_iff, beq_eq_false_iff_ne] at hg
    have hstep := hakin.step hg.1.1 hb
    refine ⟨hstep ▸ hkeeps.number, hstep ▸ hkeeps.name, fun h => absurd h hg.1.1, fun h => absurd h hg.1.2,
      fun h => absurd h hg.2, fun _ => ?_, fun _ => ?_, fun _ => ?_⟩
    · rw [outlook_head]
      exact fun h => startsName_ne hv (by decide) (Option.some.inj h)
    · have hbang : d ≠ '!' := startsName_ne hv (by decide)
      simp [Outlook.step, hbang]
    · rw [outlook_head]
      exact fun h => startsName_ne hv (by decide) (Option.some.inj h)
  | _ => trivial

theorem Reads.isSpace_of_mem (h : Reads x u .space) (hc : c ∈ x) : isSpace c = true := by
  cases h.shape with
  | space _ htake => exact List.mem_takeWhile_imp (htake ▸ hc)
  | word _ hw => cases hw
  | hash hl _ => cases hl
  | sign _ hs => cases hs

/-- What stands before such a token sees no difference. -/
theorem Reads.outlook_before (h : Reads x u t) (hu : u ≠ []) (hs : u.head?.any isSpace = false) (hg : t.glues = false)
    (hakin : Outlook.Akin (outlook u) (outlook v)) : outlook (x ++ u) = outlook (x ++ v) := by
  have hsettled := h.settled hu
  rw [outlook_append, outlook_append]
  by_cases hspace : t = .space
  · subst hspace
    obtain ⟨y, e, rfl⟩ : ∃ y e, x = y ++ [e] := ⟨x.dropLast, x.getLast h.ne_nil, (List.dropLast_concat_getLast h.ne_nil).symm⟩
    have he : isSpace e = true := h.isSpace_of_mem (by simp)
    have hm : e ≠ '-' := by rintro rfl; cases he
    have hb : e ≠ '\\' := by rintro rfl; cases he
    rw [Outlook.through_append, Outlook.through_append]
    exact congrArg _ (hakin.step hm hb)
  by_cases hdelim : ∃ e, t = .delim e
  · obtain ⟨e, rfl⟩ := hdelim
    have hkeeps : (outlook u).KeepsDelim e := hsettled
    simp only [Token.glues, Bool.or_eq_false_iff, beq_eq_false_iff_ne] at hg
    rw [h.sign rfl]
    exact hakin.step hg.1.1 (hkeeps.ne_backslash hu hs)
  · obtain ⟨e, he, hblocks⟩ := h.blocks hg hspace fun e he => hdelim ⟨e, he⟩
    exact Outlook.through_of_blocks he hblocks _ _

/-- A token is read before a name as it is before another, if both begin with
two hyphens or neither does, and what stands before it sees no difference. -/
theorem Reads.paste (h : Reads x u t) (hu : startsName u = true) (hv : startsName v = true)
    (hd : (outlook u).dashes = (outlook v).dashes) : Reads x v t ∧ outlook (x ++ u) = outlook (x ++ v) := by
  obtain ⟨c, u, rfl⟩ := List.exists_cons_of_ne_nil (show u ≠ [] by rintro rfl; cases hu)
  have hg := h.glues_eq_false hu
  have hakin := (free_of_startsName hu).akin (free_of_startsName hv) hd
  have hs : (c :: u).head?.any isSpace = false := isSpace_of_startsName hu
  exact ⟨h.before_name (List.cons_ne_nil _ _) hs hg hv hakin, h.outlook_before (List.cons_ne_nil _ _) hs hg hakin⟩

end

end ThemeVars
