/-
References that outlast a rewriting. `rewrite_keeps_references`: where
references by a sigil are replaced by references to custom properties, what is
written is a value again, and has every `var()` of the first in its order, with
the new ones among them. `rewrite_escaped`: where a name is written with an
escape, what is written need not be a value.
-/
import ThemeVars.Error
import ThemeVars.Proofs.Value.Recasting

namespace ThemeVars

/-! ## What a reference by a sigil looks like -/

/-- The name that an identifier is. -/
def Token.ident? : Token → Option String
  | .ident name => .some name
  | _ => .none

/-- The name of the reference by a sigil that the lexemes begin with. -/
def referenceName? (sigil : Option Char) : List Lexeme → Option String
  | [] => .none
  | l :: ls =>
    match l.token with
    | .atKeyword name => if sigil == .some '@' then .some ("@" ++ name) else .none
    | .delim c =>
      if c != '#' && sigil == .some c then
        ((ls.find? (·.token != .comment)).bind (·.token.ident?)).map fun name => String.ofList (c :: name.toList)
      else .none
    | _ => .none

/-- No token goes on with what takes the place of a reference after it that may
be replaced. -/
def Loose (sigil : Option Char) (may : String → Bool) : List Lexeme → Prop
  | [] => True
  | l :: ls => ((referenceName? sigil ls).any may = true → l.token.glues = false) ∧ Loose sigil may ls

/-- Whether lexemes are loose can be looked up. -/
def decideLoose (sigil : Option Char) (may : String → Bool) : (ls : List Lexeme) → Decidable (Loose sigil may ls)
  | [] => .isTrue trivial
  | _ :: ls =>
    have := decideLoose sigil may ls
    inferInstanceAs (Decidable (_ ∧ _))

instance (sigil : Option Char) (may : String → Bool) : DecidablePred (Loose sigil may) := decideLoose sigil may

namespace Value

open Pieces (leaves)

section

variable {sigil : Option Char} {r : Reference} {ls ms : List Lexeme}

theorem SigilLexemes.referenceName? (h : SigilLexemes sigil r ls) (ms : List Lexeme) :
    referenceName? sigil (ls ++ ms) = .some r.name := by
  cases h with
  | atKeyword hl hs => simp [ThemeVars.referenceName?, hl, hs]
  | @sigil l c cs m name hl hc hs hcs hm =>
    have hfind : (cs ++ [m] ++ ms).find? (·.token != .comment) = .some m := by
      have hnone : cs.find? (·.token != .comment) = .none := by
        rw [List.find?_eq_none]
        intro k hk
        simpa using hcs k hk
      rw [List.append_assoc, List.find?_append, hnone]
      simp [hm]
    rw [List.cons_append, ThemeVars.referenceName?]
    simp only [hl, hs, hfind]
    simp [hc, hm, Token.ident?]

/-- From further away, a reference by a sigil looks like a name. -/
theorem SigilLexemes.free (h : SigilLexemes sigil r ls) (ht : Tiled (ls ++ ms)) :
    (outlook ((ls ++ ms).flatMap (·.text))).Free ∧ (outlook ((ls ++ ms).flatMap (·.text))).dashes = false ∧
      (ls ++ ms).flatMap (·.text) ≠ [] ∧ ((ls ++ ms).flatMap (·.text)).head?.any Text.isSpace = false := by
  cases h with
  | @atKeyword l name hl _ =>
    have hread := ht.1
    rw [hl] at hread
    obtain ⟨written, htext, -⟩ := hread.atKeyword
    have hcons : ([l] ++ ms).flatMap (·.text) = '@' :: (written ++ ms.flatMap (·.text)) := by simp [htext]
    rw [hcons]
    obtain ⟨hfree, hdashes⟩ := free_atSign (written ++ ms.flatMap (·.text))
    exact ⟨hfree, hdashes, List.cons_ne_nil _ _, rfl⟩
  | @sigil l c cs m name hl _ _ _ _ =>
    have hread := ht.1
    rw [hl] at hread
    have htext : l.text = [c] := hread.sign rfl
    have hrest : (cs ++ [m] ++ ms).flatMap (·.text) ≠ [] := by
      obtain ⟨u, hm⟩ := ht.reads (l := m) (by simp)
      simp [hm.ne_nil]
    have hcons : (l :: (cs ++ [m]) ++ ms).flatMap (·.text) = c :: (cs ++ [m] ++ ms).flatMap (·.text) := by simp [htext]
    rw [htext] at hread
    rw [hcons]
    obtain ⟨hfree, hdashes⟩ := hread.free_delim hrest
    exact ⟨hfree, hdashes, List.cons_ne_nil _ _, hread.isSpace_delim⟩

end

/-! ## What is put in its place -/

theorem exists_consText {s : List Char} (hs : s ≠ []) (v : Value) : ∃ t w, consText (String.ofList s) v = .text t w := by
  unfold consText
  rw [if_neg (by simpa using hs)]
  split
  · exact ⟨_, _, rfl⟩
  · exact ⟨_, _, rfl⟩

section

variable {sigil : Option Char} {p : Pieces} {r : Reference} {x v : Value}

/-- Nothing is read from nothing only. -/
theorem ReadsAs.eq_done (h : ReadsAs sigil p .done) (hp : ∀ l ∈ p.lexemes, l.text ≠ []) : p = .done := by
  generalize hv : Value.done = v at h
  cases h with
  | done => rfl
  | @text l rest v _ _ =>
    obtain ⟨t, w, hw⟩ := exists_consText (hp l (by simp [Pieces.lexemes])) v
    cases hv.trans hw
  | @block opener bracket inner closer rest a v _ _ _ =>
    obtain ⟨t, w, hw⟩ := exists_consText (hp opener (by simp [Pieces.lexemes]))
      (a.append (consText bracket.closer v))
    cases hv.trans hw
  | interpolation => cases hv
  | atKeyword => cases hv
  | sigil => cases hv
  | var => cases hv
  | guarded => cases hv

/-- A reference with a fallback is read from one block. -/
theorem ReadsAs.guarded_cases (h : ReadsAs sigil p (.guarded r x v)) (hp : ∀ l ∈ p.lexemes, l.text ≠ []) :
    ∃ opener bracket inner closer rest name fallback, p = .block opener bracket inner closer rest ∧
      opensVar opener.token = true ∧ varParts inner = .ok (name, .some fallback) ∧ ReadsAs sigil fallback x ∧
      ReadsAs sigil rest v ∧ r = ⟨name, String.ofList (Pieces.blockText opener inner closer), .var⟩ := by
  generalize hv : Value.guarded r x v = w at h
  cases h with
  | @text l rest v _ _ =>
    obtain ⟨t, w, hw⟩ := exists_consText (hp l (by simp [Pieces.lexemes])) v
    cases hv.trans hw
  | @block opener bracket inner closer rest a v _ _ _ =>
    obtain ⟨t, w, hw⟩ := exists_consText (hp opener (by simp [Pieces.lexemes]))
      (a.append (consText bracket.closer v))
    cases hv.trans hw
  | guarded ho hparts ha hrest =>
    obtain ⟨rfl, rfl, rfl⟩ := Value.guarded.inj hv
    exact ⟨_, _, _, _, _, _, _, rfl, ho, hparts, ha, hrest, rfl⟩
  | done => cases hv
  | interpolation => cases hv
  | atKeyword => cases hv
  | sigil => cases hv
  | var => cases hv

end

/-- The text is one reference to the custom property, with a fallback that
refers to nothing. -/
structure RefersTo (sigil : Option Char) (ident new : String) : Prop where
  parse : ∃ x, Value.parse sigil new = .ok (.guarded ⟨ident, new, .var⟩ x .done) ∧ x.references = []
  closed : (Pieces.ofText new.toList).Closed

theorem occurrences_eq_nil {v : Value} (h : v.references = []) (b : Bool) : v.occurrences b = [] := by
  induction v generalizing b with
  | done => rfl
  | text _ rest ih => exact ih h b
  | interpolation inner rest ihi ihr =>
    obtain ⟨hi, hr⟩ := List.append_eq_nil_iff.1 h
    rw [occurrences, ihi hi, ihr hr]
    rfl
  | reference => cases h
  | guarded => cases h

section

variable {sigil : Option Char} {may : String → Bool}

/-- The pieces of such a text are one `var()`. -/
theorem RefersTo.pieces {ident new : String} (h : RefersTo sigil ident new) :
    ∃ opener y inner closer fallback x, Pieces.ofText new.toList = .block opener .round inner (.some closer) .done ∧
      opener.token = .function y ∧ y.lowered = "var" ∧ closer.token = .closing .round ∧
      varParts inner = .ok (ident, .some fallback) ∧ ReadsAs sigil fallback x ∧ x.references = [] ∧
      new = String.ofList (Pieces.blockText opener inner (.some closer)) := by
  obtain ⟨⟨x, hx, hnone⟩, hclosed⟩ := h
  have hread : ReadsAs sigil (.ofText new.toList) (.guarded ⟨ident, new, .var⟩ x .done) := readsAs_iff.1 (mapError_ok.1 hx)
  have hmatched : (Pieces.ofText new.toList).Matched := Pieces.matched_ofLexemes _
  have hne : ∀ l ∈ (Pieces.ofText new.toList).lexemes, l.text ≠ [] := by
    rw [Pieces.ofText, Pieces.lexemes_ofLexemes]
    intro l hl
    obtain ⟨u, hread⟩ := (tiled_lexemes new.toList).reads hl
    exact hread.ne_nil
  obtain ⟨opener, bracket, inner, closer, rest, name, fallback, hp, hopener, hparts, hfallback, hrest, hr⟩ :=
    hread.guarded_cases hne
  rw [hp] at hmatched hclosed hne
  obtain ⟨closer, rfl⟩ := Option.ne_none_iff_exists'.1 hclosed.2.1
  obtain rfl : rest = .done := by
    refine hrest.eq_done fun l hl => hne l ?_
    rw [Pieces.lexemes]
    exact List.mem_append_right _ hl
  obtain ⟨y, hy⟩ := exists_function hopener
  obtain rfl : Bracket.round = bracket := by
    have hopens := hmatched.1
    rw [hy] at hopens
    exact Option.some.inj hopens
  have hlowered : y.lowered = "var" := by
    rw [hy] at hopener
    simpa [opensVar] using hopener
  obtain ⟨rfl, hraw, -⟩ := Reference.mk.inj hr
  exact ⟨opener, y, inner, closer, fallback, x, hp, hy, hlowered, (hmatched.2.2.2.1 closer rfl).1, hparts, hfallback, hnone,
    hraw⟩

/-- A `var()` can take the place of a reference by a sigil that may be replaced,
for what comes before it. -/
theorem SigilLexemes.yieldsTo {r : Reference} {ls inner : List Lexeme} {opener closer : Lexeme} {y : String}
    (hls : SigilLexemes sigil r ls) (hmay : may r.name = true) (hy : opener.token = .function y) (hlowered : y.lowered = "var")
    (hclosing : closer.token = .closing .round) (htiled : Tiled ((opener :: inner) ++ [closer])) :
    YieldsTo (Loose sigil may) ls ((opener :: inner) ++ [closer]) := by
  intro ms ms' hh hms _
  rw [List.append_assoc]
  have hput : Tiled ((opener :: inner) ++ closer :: ms') := htiled.change_after hclosing hms
  refine ⟨hput, fun l hl hread => ?_⟩
  have hglues : l.token.glues = false := hl.1 (by rw [hls.referenceName? ms]; exact hmay)
  obtain ⟨hfree, hdashes, hnil, hspace⟩ := hls.free hh.tiled
  have hfunction : Reads opener.text ((inner ++ closer :: ms').flatMap (·.text)) (.function y) := by
    rw [← hy]
    exact hput.1
  obtain ⟨hstarts, hdashes'⟩ := hfunction.dashes_function (by rw [hlowered]; decide)
  have hakin := hfree.akin (free_of_startsName hstarts) (hdashes.trans hdashes'.symm)
  exact ⟨hread.before_name hnil hspace hglues hstarts hakin, hread.outlook_before hnil hspace hglues hakin⟩

/-- A reference to a custom property fits in the place of one by a sigil that
may be replaced. -/
theorem RefersTo.fits {ident new : String} (h : RefersTo sigil ident new) {r : Reference} {ls : List Lexeme}
    (hls : SigilLexemes sigil r ls) (hmay : may r.name = true) :
    ∃ q x, Fits (Loose sigil may) sigil ls new q x ∧ ∀ b, x.occurrences b = [⟨ident, .var, b⟩] := by
  obtain ⟨opener, y, inner, closer, fallback, x, hp, hy, hlowered, hclosing, hparts, hfallback, hnone, hraw⟩ := h.pieces
  have hlexemes : (Pieces.block opener .round inner (.some closer) .done).lexemes = (opener :: inner.lexemes) ++ [closer] := by
    simp [Pieces.lexemes]
  have htiled : Tiled ((opener :: inner.lexemes) ++ [closer]) := by
    rw [← hlexemes, ← hp, Pieces.ofText, Pieces.lexemes_ofLexemes]
    exact tiled_lexemes _
  refine ⟨.block opener .round inner (.some closer) .done, .guarded ⟨ident, new, .var⟩ x .done, ?_, fun b => ?_⟩
  · refine ⟨fun hv => ?_, hp ▸ Pieces.text_ofText _, ?_, hp ▸ Pieces.matched_ofLexemes _, hp ▸ h.closed, fun _ => trivial,
      fun _ _ => .freshBlock (by decide), ⟨opener :: inner.lexemes, closer, .round, hlexemes, hclosing⟩, ?_⟩
    · rw [hraw]
      exact .guarded (by simp [opensVar, hy, hlowered]) hparts hfallback hv
    · rw [verbatim, verbatim, String.append_empty]
    · rw [hlexemes]
      exact hls.yieldsTo hmay hy hlowered hclosing htiled
  · rw [occurrences, occurrences_eq_nil hnone]
    rfl

/-! ## What is left of the references -/

/-- The second list is the first with such ones put in. -/
inductive Interleaved {α : Type} (p : α → Prop) : List α → List α → Prop
  | nil : Interleaved p [] []
  | kept {a l l'} : Interleaved p l l' → Interleaved p (a :: l) (a :: l')
  | inserted {a l l'} : p a → Interleaved p l l' → Interleaved p l (a :: l')

/-- The custom properties that the value refers to. -/
def properties (v : Value) : List String := (v.references.filter (·.kind == .var)).map (·.name)

theorem properties_eq (v : Value) (b : Bool) : v.properties = ((v.occurrences b).filter (·.kind == .var)).map (·.name) := by
  have h : v.references.map (fun r => (r.kind, r.name)) = (v.occurrences b).map fun e => (e.kind, e.name) := by
    induction v generalizing b with
    | done => rfl
    | text _ rest ih => exact ih b
    | interpolation inner rest ihi ihr => simp only [references, occurrences, List.map_append, ihi true, ihr b]
    | reference r rest ih => simp only [references, occurrences, List.map_cons, ih b, Reference.occurrence]
    | guarded r fallback rest ihf ihr =>
      simp only [references, occurrences, List.cons_append, List.map_cons, List.map_append, ihf b, ihr b, Reference.occurrence]
  have hfilter {α : Type} (kind : α → ReferenceKind) (name : α → String) (l : List α) :
      (l.filter (kind · == .var)).map name = ((l.map fun a => (kind a, name a)).filter (·.1 == .var)).map (·.2) := by
    rw [List.filter_map, List.map_map]
    rfl
  rw [properties, hfilter Reference.kind Reference.name, h, ← hfilter Occurrence.kind Occurrence.name]

/-- It may be replaced. -/
def replaceable (may : String → Bool) (e : Occurrence) : Bool := e.kind == .sigil && may e.name

/-- It is kept, or has a reference to a custom property in its place. -/
def Kept (may : String → Bool) (inserted : String → Prop) (e : Occurrence) (es : List Occurrence) : Prop :=
  es = [e] ∨ replaceable may e = true ∧ ∃ ident, inserted ident ∧ es = [⟨ident, .var, e.inside⟩]

theorem interleaved_of_spliced {inserted : String → Prop} {l l' : List Occurrence}
    (h : Spliced (Kept may inserted) l l') :
    Interleaved inserted ((l.filter (·.kind == .var)).map (·.name)) ((l'.filter (·.kind == .var)).map (·.name)) := by
  induction h with
  | nil => exact .nil
  | @cons e es l l' he _ ih =>
    rcases he with rfl | ⟨hmay, ident, hident, rfl⟩
    · rw [List.cons_append, List.nil_append, List.filter_cons, List.filter_cons]
      split
      · exact .kept ih
      · exact ih
    · rw [replaceable, Bool.and_eq_true, beq_iff_eq] at hmay
      rw [List.cons_append, List.nil_append, List.filter_cons_of_neg (by simp [hmay.1]), List.filter_cons_of_pos (by simp)]
      exact .inserted hident ih

variable {σ ε : Type} {f : Reference → Bool → StateT σ (Except ε) (Option String)}

/-- References to custom properties outlast a rewriting that replaces
references by a sigil only. In a value in which every block is closed, and where
neither a token before a reference that may be replaced goes on with a name nor
a `var()` around one has an escape in its name or a token at its end that would
be cut, what is written is a value again. Its references are those of the first,
with references to custom properties in the place of some by a sigil. -/
theorem rewrite_keeps_references {text : String} {v : Value} (h : Value.parse sigil text = .ok v)
    (hc : (Pieces.ofText text.toList).Closed) (hl : Loose sigil may (lexemes text.toList))
    (hn : Neat (replaceable may) false v) (inserted : String → Prop)
    (hf : ∀ r b s, ∃ new t, (f r b).run s = .ok (new, t) ∧ ∀ text, new = .some text →
      r.kind = .sigil ∧ may r.name = true ∧ ∃ ident, inserted ident ∧ RefersTo sigil ident text) (s : σ) :
    ∃ out t w, (v.rewrite f false).run s = .ok (out, t) ∧ Value.parse sigil out = .ok w ∧ w.verbatim = out ∧
      Spliced (Kept may inserted) (v.occurrences false) (w.occurrences false) ∧
      Interleaved inserted v.properties w.properties := by
  obtain ⟨out, t, hrun, hwrites⟩ := exists_writes hf v false s
  have hanswers : Answers (Loose sigil may) sigil (replaceable may)
      (fun r _ new => ∀ text, new = .some text →
        r.kind = .sigil ∧ may r.name = true ∧ ∃ ident, inserted ident ∧ RefersTo sigil ident text)
      (Kept may inserted) := by
    refine ⟨fun _ _ _ => .inl rfl, fun r b new hr => ?_, fun r b new ls hr hls => ?_⟩
    · obtain ⟨hkind, hmay, -⟩ := hr new rfl
      exact ⟨by simp [replaceable, Reference.occurrence, hkind, hmay], hkind⟩
    · obtain ⟨hkind, hmay, ident, hident, hrefers⟩ := hr new rfl
      obtain ⟨q, x, hq, hx⟩ := hrefers.fits hls hmay
      refine ⟨q, x, hq, .inr ⟨?_, ident, hident, hx b⟩⟩
      simp [replaceable, Reference.occurrence, hkind, hmay]
  obtain ⟨w, hw, hverbatim, hspliced⟩ := read_of_writes (fun h => h.2) (mapError_ok.1 h) hc hl hanswers hn hwrites
  refine ⟨out, t, w, hrun, mapError_ok.2 hw, hverbatim, hspliced, ?_⟩
  rw [properties_eq v false, properties_eq w false]
  exact interleaved_of_spliced hspliced

end

/-- One name is replaced, and every name that is asked about is noted. -/
def theming (r : Reference) (_ : Bool) : StateT (List String) (Except String) (Option String) := do
  modify (· ++ [r.name])
  return if r.kind == .sigil && r.name == "$x" then .some "var(--x, red)" else .none

theorem refersTo_red : RefersTo (.some '$') "--x" "var(--x, red)" := by
  obtain ⟨v, hv, hvalue⟩ : ∃ v, Value.parse (.some '$') "var(--x, red)" = .ok v ∧
      id v = .guarded ⟨"--x", "var(--x, red)", .var⟩ (.text "red" .done) .done := ok_of_toOption (by decide +kernel)
  refine ⟨⟨.text "red" .done, ?_, rfl⟩, by decide +kernel⟩
  rw [hv, ← hvalue]
  rfl

theorem rewrite_keeps_references_nested :
    ∃ v w, Value.parse (.some '$') "a var(--b, rgb($x) var(--c, $x)) $y" = .ok v ∧
      v.properties = ["--b", "--c"] ∧ (Pieces.ofText "a var(--b, rgb($x) var(--c, $x)) $y".toList).Closed ∧
      Loose (.some '$') (· == "$x") (lexemes "a var(--b, rgb($x) var(--c, $x)) $y".toList) ∧
      Neat (replaceable (· == "$x")) false v ∧
      (v.rewrite theming false).run [] =
        .ok ("a var(--b, rgb(var(--x, red)) var(--c, var(--x, red))) $y", ["--b", "$x", "--c", "$x", "$y"]) ∧
      Value.parse (.some '$') "a var(--b, rgb(var(--x, red)) var(--c, var(--x, red))) $y" = .ok w ∧
      Spliced (Kept (· == "$x") (· = "--x")) (v.occurrences false) (w.occurrences false) ∧
      Interleaved (· = "--x") ["--b", "--c"] w.properties := by
  obtain ⟨v, hv, hfacts⟩ : ∃ v, Value.parse (.some '$') "a var(--b, rgb($x) var(--c, $x)) $y" = .ok v ∧
      (v.properties, decide (Neat (replaceable (· == "$x")) false v), ((v.rewrite theming false).run []).toOption) =
        (["--b", "--c"], true,
          .some ("a var(--b, rgb(var(--x, red)) var(--c, var(--x, red))) $y", ["--b", "$x", "--c", "$x", "$y"])) :=
    ok_of_toOption (by decide +kernel)
  simp only [Prod.mk.injEq, decide_eq_true_eq] at hfacts
  obtain ⟨hproperties, hneat, hout⟩ := hfacts
  have hanswers (r : Reference) (b : Bool) (s : List String) : ∃ new t, (theming r b).run s = .ok (new, t) ∧
      ∀ text, new = .some text → r.kind = .sigil ∧ (r.name == "$x") = true ∧
        ∃ ident, ident = "--x" ∧ RefersTo (.some '$') ident text := by
    refine ⟨_, _, rfl, fun text htext => ?_⟩
    split at htext
    · rename_i hr
      rw [Bool.and_eq_true, beq_iff_eq] at hr
      cases htext
      exact ⟨hr.1, hr.2, "--x", rfl, refersTo_red⟩
    · cases htext
  have hclosed : (Pieces.ofText "a var(--b, rgb($x) var(--c, $x)) $y".toList).Closed := by decide +kernel
  have hloose : Loose (.some '$') (· == "$x") (lexemes "a var(--b, rgb($x) var(--c, $x)) $y".toList) := by decide +kernel
  have hrewritten := rewrite_keeps_references hv hclosed hloose hneat (· = "--x") hanswers []
  obtain ⟨out, t, w, hrun, hw, -, hspliced, hinterleaved⟩ := hrewritten
  rw [hrun, Except.toOption, Option.some.injEq, Prod.mk.injEq] at hout
  obtain ⟨rfl, rfl⟩ := hout
  rw [hproperties] at hinterleaved
  exact ⟨v, w, hv, hproperties, hclosed, hloose, hneat, hrun, hw, hspliced, hinterleaved⟩

/-- A `var()` is written anew with the name that its tokens stand for, which is
not the name as it was written. -/
theorem rewrite_escaped :
    (∃ v, Value.parse (.some '$') "var(--a\\.b, $x)" = .ok v ∧
        (v.properties, ((v.rewrite theming false).run []).toOption) =
          (["--a.b"], .some ("var(--a.b, var(--x, red))", ["--a.b", "$x"]))) ∧
      (Pieces.ofText "var(--a\\.b, $x)".toList).Closed ∧ RefersTo (.some '$') "--x" "var(--x, red)" ∧
      (Value.parse (.some '$') "var(--a.b, var(--x, red))").toOption = .none :=
  ⟨ok_of_toOption (by decide +kernel), by decide +kernel, refersTo_red, by decide +kernel⟩

end Value

end ThemeVars
