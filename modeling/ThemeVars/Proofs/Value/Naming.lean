/-
Names of references. A reference has the name that its tokens stand for, while
a variable is named by the text of its declaration. `find?_declared`: where
that text is plain, a reference that is spelled like it leads to the variable.
`resolve_escaped`: where it has an escape, one need not.
-/
import ThemeVars.Emission
import ThemeVars.Proofs.Token.Name
import ThemeVars.Proofs.Value.Reading
import ThemeVars.Proofs.Variable.Scan
import ThemeVars.Proofs.Variable.Substitution
import ThemeVars.Proofs.Variable.Table

namespace ThemeVars

open Text

/-! ## Where references come from -/

/-- A lexeme is read before those that stand after it. -/
theorem Tiled.reads_of_infix {ls a b : List Lexeme} {l : Lexeme} (h : Tiled ls) (hl : a ++ l :: b <:+: ls) :
    ∃ more, Reads l.text (b.flatMap (·.text) ++ more) l.token := by
  obtain ⟨front, back, rfl⟩ := hl
  rw [List.append_assoc, List.append_assoc] at h
  have hreads : Reads l.text ((b ++ back).flatMap (·.text)) l.token := h.of_append.of_append.1
  rw [List.flatMap_append] at hreads
  exact ⟨_, hreads⟩

namespace Value

open Pieces (leaves)

variable {sigil : Option Char} {ls : List Lexeme}

@[simp] theorem references_consText (s : String) (v : Value) : (consText s v).references = v.references := by
  unfold consText
  split
  · rfl
  · split
    · rfl
    · rfl

@[simp] theorem references_append (v w : Value) : (v.append w).references = v.references ++ w.references := by
  induction v with
  | done => rfl
  | text s rest ih =>
    rw [append, references_consText, ih]
    rfl
  | interpolation inner rest _ ih => simp [append, references, ih]
  | reference r rest ih => simp [append, references, ih]
  | guarded r fallback rest _ ih => simp [append, references, ih]

/-- The reference is read from some of these lexemes. -/
inductive Named (sigil : Option Char) (ls : List Lexeme) : Reference → Prop
  | var {opener inner closer name fallback} : opensVar opener.token = true → varParts inner = .ok (name, fallback) →
    opener :: (inner.lexemes ++ closer.toList) <:+: ls →
    Named sigil ls ⟨name, String.ofList (Pieces.blockText opener inner closer), .var⟩
  | atKeyword {l name} : sigil = .some '@' → l.token = .atKeyword name → [l] <:+: ls →
    Named sigil ls ⟨"@" ++ name, String.ofList l.text, .sigil⟩
  | sigil {l c cs m name} : sigil = .some c → l.token = .delim c → AllComments cs → m.token = .ident name →
    l :: (cs ++ [m]) <:+: ls →
    Named sigil ls
      ⟨String.ofList (c :: name.toList), String.ofList (l.text ++ (cs.flatMap (·.text) ++ m.text)), .sigil⟩

theorem lexemes_afterFiller (p : Pieces) : p.afterFiller.lexemes <:+ p.lexemes := by
  obtain ⟨ls, -, hp, -⟩ := Pieces.exists_leaves Token.isFiller p
  refine ⟨ls, ?_⟩
  conv_rhs => rw [hp, Pieces.lexemes_leaves]
  rfl

/-- A fallback stands at the end of the inside of its `var()`. -/
theorem lexemes_fallback {inner fallback : Pieces} {name : String} (h : varParts inner = .ok (name, .some fallback)) :
    fallback.lexemes <:+ inner.lexemes := by
  have hinner := lexemes_afterFiller inner
  unfold varParts at h
  split at h
  · cases h
  · rename_i l rest hl
    rw [hl] at hinner
    have hrest : rest.lexemes <:+ inner.lexemes := (List.suffix_cons l _).trans hinner
    split at h
    · split at h
      · obtain ⟨found, hfound, he⟩ := map_ok.1 h
        cases he
        have hafter := lexemes_afterFiller rest
        unfold fallbackOf at hfound
        split at hfound
        · cases hfound
        · rename_i l' rest' hl'
          rw [hl'] at hafter
          split at hfound
          · cases hfound
            exact (lexemes_afterFiller rest').trans (((List.suffix_cons l' _).trans hafter).trans hrest)
          · cases hfound
        · cases hfound
      · cases h
    · cases h
  · cases h

/-- Every reference of a value is read from lexemes of its text. -/
theorem ReadsAs.named {p : Pieces} {v : Value} (h : ReadsAs sigil p v) (hp : p.lexemes <:+: ls) :
    ∀ r ∈ v.references, Named sigil ls r := by
  induction h with
  | done => exact fun r hr => nomatch hr
  | text _ _ ih =>
    rw [references_consText]
    exact ih ((List.suffix_cons _ _).isInfix.trans hp)
  | @interpolation l cs opener inner closer rest a b _ _ _ _ iha ihb =>
    rw [Pieces.lexemes, Pieces.lexemes_leaves, Pieces.lexemes] at hp
    have hinner : inner.lexemes <:+: ls :=
      .trans ⟨l :: (cs ++ [opener]), closer.toList ++ rest.lexemes, by simp⟩ hp
    have hrest : rest.lexemes <:+: ls :=
      .trans ⟨l :: (cs ++ opener :: inner.lexemes ++ closer.toList), [], by simp⟩ hp
    exact List.forall_mem_append.2 ⟨iha hinner, ihb hrest⟩
  | @atKeyword l name rest v hl hs _ ih =>
    rw [Pieces.lexemes] at hp
    exact List.forall_mem_cons.2 ⟨.atKeyword hs hl (.trans ⟨[], rest.lexemes, rfl⟩ hp),
      ih ((List.suffix_cons _ _).isInfix.trans hp)⟩
  | @sigil l c cs m name rest v hl _ hs hcs hm _ ih =>
    rw [Pieces.lexemes, Pieces.lexemes_leaves, Pieces.lexemes] at hp
    have hname : l :: (cs ++ [m]) <:+: ls := .trans ⟨[], rest.lexemes, by simp⟩ hp
    have hrest : rest.lexemes <:+: ls := .trans ⟨l :: (cs ++ [m]), [], by simp⟩ hp
    exact List.forall_mem_cons.2 ⟨.sigil hs hl hcs hm hname, ih hrest⟩
  | @var opener bracket inner closer rest name v ho hparts _ ih =>
    rw [Pieces.lexemes] at hp
    have hvar : opener :: (inner.lexemes ++ closer.toList) <:+: ls := .trans ⟨[], rest.lexemes, by simp⟩ hp
    have hrest : rest.lexemes <:+: ls := .trans ⟨opener :: (inner.lexemes ++ closer.toList), [], by simp⟩ hp
    exact List.forall_mem_cons.2 ⟨.var ho hparts hvar, ih hrest⟩
  | @guarded opener bracket inner closer rest name fallback a v ho hparts _ _ iha ih =>
    rw [Pieces.lexemes] at hp
    have hvar : opener :: (inner.lexemes ++ closer.toList) <:+: ls := .trans ⟨[], rest.lexemes, by simp⟩ hp
    have hrest : rest.lexemes <:+: ls := .trans ⟨opener :: (inner.lexemes ++ closer.toList), [], by simp⟩ hp
    have hinner : inner.lexemes <:+: ls := .trans ⟨[opener], closer.toList, by simp⟩ hvar
    exact List.forall_mem_cons.2 ⟨.var ho hparts hvar,
      List.forall_mem_append.2 ⟨iha ((lexemes_fallback hparts).isInfix.trans hinner), ih hrest⟩⟩
  | @block opener bracket inner closer rest a v _ _ _ iha ih =>
    rw [Pieces.lexemes] at hp
    have hinner : inner.lexemes <:+: ls := .trans ⟨[opener], closer.toList ++ rest.lexemes, by simp⟩ hp
    have hrest : rest.lexemes <:+: ls := .trans ⟨opener :: (inner.lexemes ++ closer.toList), [], by simp⟩ hp
    rw [references_consText, references_append, references_consText]
    exact List.forall_mem_append.2 ⟨iha hinner, ih hrest⟩

/-! ## What they are named -/

variable {name : List Char}

theorem exists_function {t : Token} (h : opensVar t = true) : ∃ x, t = .function x := by
  unfold opensVar at h
  split at h
  · exact ⟨_, rfl⟩
  · cases h

/-- Where an identifier comes first in `var()`, it is the name. -/
theorem name_of_varParts {l : Lexeme} {rest : Pieces} {x n : String} {fallback : Option Pieces} (hl : l.token = .ident x)
    (h : varParts (.leaf l rest) = .ok (n, fallback)) : n = x := by
  have hleaf : (Pieces.leaf l rest).afterFiller = .leaf l rest := by
    simp [Pieces.afterFiller, Pieces.dropLeaves, hl, Token.isFiller]
  simp only [varParts, hleaf, hl] at h
  split at h
  · obtain ⟨_, -, he⟩ := map_ok.1 h
    cases he
    rfl
  · cases h

/-- In `var()`, a plain name is read as itself. -/
theorem Named.name_var {r : Reference} (h : Named sigil ls r) (ht : Tiled ls) (hs : sigil ≠ .some 'v')
    (hn : nameAt ('-' :: '-' :: name) = '-' :: '-' :: name) (hp : IsPlain ('-' :: '-' :: name))
    (hr : r.raw = String.ofList ('v' :: 'a' :: 'r' :: '(' :: '-' :: '-' :: name ++ [')'])) :
    r.name = String.ofList ('-' :: '-' :: name) := by
  cases h with
  | @var opener inner closer n fallback ho hparts hls =>
    obtain ⟨more, hopener⟩ := ht.reads_of_infix (a := []) hls
    obtain ⟨x, hx⟩ := exists_function ho
    rw [hx] at hopener
    obtain ⟨written, htext, -, hwritten⟩ := hopener.function
    have hinside : written ++ '(' :: (inner.lexemes ++ closer.toList).flatMap (·.text) =
        ['v', 'a', 'r'] ++ '(' :: ('-' :: '-' :: name ++ [')']) := by
      rw [String.ofList_inj, Pieces.blockText, htext] at hr
      simpa [Pieces.text] using hr
    -- the function's name reaches up to the parenthesis
    have hvar : written = ['v', 'a', 'r'] := by
      have hplain : IsPlain ['v', 'a', 'r'] := by simp [IsPlain]
      have hname := nameAt_plain hplain (by decide) (c := '(') rfl (by decide) ('-' :: '-' :: name ++ [')'] ++ more)
      have hsame : written ++ '(' :: ((inner.lexemes ++ closer.toList).flatMap (·.text) ++ more) =
          ['v', 'a', 'r'] ++ '(' :: ('-' :: '-' :: name ++ [')'] ++ more) := by
        simpa using congrArg (· ++ more) hinside
      rw [← hwritten, hsame, hname]
    subst hvar
    have hrest := (List.cons.inj (List.append_cancel_left hinside)).2
    -- and the first lexeme after it is the name
    rcases hlexemes : inner.lexemes ++ closer.toList with _ | ⟨m, ms⟩
    · rw [hlexemes] at hrest
      cases hrest
    rw [hlexemes] at hrest hls
    obtain ⟨more, hm⟩ := ht.reads_of_infix (a := [opener]) hls
    obtain ⟨hmtext, hmtoken⟩ := hm.unique (reads_custom hp hn (.inl rfl) more) (by
      have := congrArg (· ++ more) hrest
      simpa using this)
    rw [List.flatMap_cons, hmtext] at hrest
    have hms : ms ≠ [] := by
      rintro rfl
      cases List.append_cancel_left hrest
    cases inner with
    | done =>
      cases closer with
      | none => cases hlexemes
      | some l =>
        cases hlexemes
        exact absurd rfl hms
    | leaf l rest =>
      cases hlexemes
      exact name_of_varParts hmtoken hparts
    | block => cases hparts
  | @atKeyword l n ha hl hls =>
    obtain ⟨_, hreads⟩ := ht.reads_of_infix (a := []) (b := []) hls
    rw [hl] at hreads
    obtain ⟨x, htext, -⟩ := hreads.atKeyword
    rw [String.ofList_inj, htext] at hr
    cases hr
  | @sigil l c cs m n hc hl hcs hm hls =>
    obtain ⟨_, hreads⟩ := ht.reads_of_infix (a := []) hls
    have htext : l.text = [c] := hreads.sign (by rw [hl]; rfl)
    rw [String.ofList_inj, htext] at hr
    obtain ⟨rfl, -⟩ := List.cons.inj hr
    exact absurd hc hs

/-- After a sigil, a plain name is read as itself. -/
theorem Named.name_sigil {r : Reference} (h : Named sigil ls r) (ht : Tiled ls) {c : Char}
    (hc : ∀ s, startsName (c :: s) = false) (hstarts : startsName name = true) (hp : IsPlain name)
    (hr : r.raw = String.ofList (c :: name)) : r.name = String.ofList (c :: name) := by
  cases h with
  | @var opener inner closer n fallback ho hparts hls =>
    obtain ⟨more, hopener⟩ := ht.reads_of_infix (a := []) hls
    obtain ⟨x, hx⟩ := exists_function ho
    rw [hx] at hopener
    obtain ⟨written, htext, hw, -⟩ := hopener.function
    rw [String.ofList_inj, Pieces.blockText, htext] at hr
    cases written with
    | nil => cases hw
    | cons d ds =>
      obtain ⟨rfl, -⟩ := List.cons.inj hr
      rw [List.cons_append, hc] at hw
      cases hw
  | @atKeyword l n ha hl hls =>
    obtain ⟨_, hreads⟩ := ht.reads_of_infix (a := []) (b := []) hls
    rw [hl] at hreads
    obtain ⟨x, htext, -, hx⟩ := hreads.atKeyword
    rw [String.ofList_inj, htext] at hr
    cases hr
    change "@" ++ n = _
    rw [hx, unescape_plain hp, show "@" = String.ofList ['@'] from rfl, ← String.ofList_append]
    rfl
  | @sigil l d cs m n hd hl hcs hm hls =>
    obtain ⟨_, hreads⟩ := ht.reads_of_infix (a := []) hls
    have htext : l.text = [d] := hreads.sign (by rw [hl]; rfl)
    rw [String.ofList_inj, htext] at hr
    obtain ⟨rfl, hname⟩ := List.cons.inj hr
    cases cs with
    | nil =>
      obtain ⟨_, hreads⟩ := ht.reads_of_infix (a := [l]) (b := []) hls
      rw [hm] at hreads
      obtain ⟨-, -, hn⟩ := hreads.ident
      change m.text = name at hname
      change String.ofList (d :: n.toList) = _
      rw [hn, hname, unescape_plain hp, String.toList_ofList]
    | cons k cs =>
      obtain ⟨_, hreads⟩ := ht.reads_of_infix (a := [l]) hls
      have hk : k.token = .comment := by simpa using hcs k (by simp)
      rw [hk] at hreads
      obtain ⟨rest, hlead⟩ := hreads.lead
      rw [← hname, List.flatMap_cons, ← hlead] at hstarts
      cases hstarts

end Value

/-! ## What they lead to -/

/-- The text is a name, without anything else. -/
def IsName (s : List Char) : Prop := ∃ n, (lexemes s).map (·.token) = [.ident n]

theorem IsName.startsName {s : List Char} (h : IsName s) : startsName s = true ∧ nameAt s = s := by
  obtain ⟨n, hn⟩ := h
  have ht := tiled_lexemes s
  have htext := lexemes_text s
  generalize lexemes s = ls at hn ht htext
  rcases ls with _ | ⟨l, _ | ⟨m, ls⟩⟩
  · cases hn
  · obtain ⟨hl, -⟩ := List.cons.inj hn
    change l.token = .ident n at hl
    have hreads := ht.1
    rw [hl] at hreads
    obtain ⟨hstarts, hname, -⟩ := hreads.ident
    simp only [List.flatMap_nil, List.append_nil, List.flatMap_cons] at hstarts hname htext
    rw [← htext]
    exact ⟨hstarts, hname⟩
  · simp at hn

/-- How a reference to the variable with this name is written: a custom
property in `var()`, a variable of the dialect by its name. -/
inductive Spells (d : Dialect) : String → String → Prop
  | var {name} : IsName ('-' :: '-' :: name) →
    Spells d (String.ofList ('-' :: '-' :: name)) ("var(" ++ String.ofList ('-' :: '-' :: name) ++ ")")
  | sigil {c name} : d.sigil? = .some c → IsName name → Spells d (String.ofList (c :: name)) (String.ofList (c :: name))

theorem Spells.ne_empty {d : Dialect} {name raw : String} (h : Spells d name raw) : name.isEmpty = false := by
  cases h with
  | var => simp [← String.toList_inj]
  | sigil => simp [← String.toList_inj]

/-- A variable of a sheet has the ident of its name. -/
theorem Sheet.ident_of_scan {sheet : Sheet} {file : Option Path} {d : Dialect} {mode : IdentMode} {v : Variable}
    (h : v ∈ (sheet.scan file d mode).records) : v.ident = .ofName mode v.name := by
  obtain ⟨_, -, rfl⟩ := Sheet.mem_scan h
  rfl

namespace Surroundings

variable {s : Surroundings}

/-- A reference that is spelled like a plain name has that name. -/
theorem name_of_spells {text : String} {value : Value} (h : s.reading text = .ok value) {r : Reference}
    (hr : r ∈ value.references) {name : String} (hname : Spells s.dialect name r.raw) (hp : IsPlain name.toList) :
    r.name = name := by
  have hread : Value.ReadsAs s.dialect.sigil? (.ofText (Value.stripPriority text).toList) value := by
    rw [← Value.readsAs_iff]
    exact mapError_ok.1 h
  have hnamed : Value.Named s.dialect.sigil? (lexemes (Value.stripPriority text).toList) r :=
    hread.named (by simp only [Pieces.ofText, Pieces.lexemes_ofLexemes, List.infix_rfl]) r hr
  have ht := tiled_lexemes (Value.stripPriority text).toList
  generalize hraw : r.raw = raw at hname
  cases hname with
  | @var n hn =>
    rw [String.toList_ofList] at hp
    refine hnamed.name_var ht ?_ hn.startsName.2 hp ?_
    · cases s.dialect <;> simp [Dialect.sigil?]
    · rw [hraw, show "var(" = String.ofList ['v', 'a', 'r', '('] from rfl, show ")" = String.ofList [')'] from rfl,
        ← String.ofList_append, ← String.ofList_append]
      rfl
  | @sigil c n hc hn =>
    rw [String.toList_ofList] at hp
    refine hnamed.name_sigil ht ?_ hn.startsName.1 (List.forall_mem_cons.1 hp).2 hraw
    intro u
    cases hd : s.dialect <;> rw [hd] at hc <;> cases hc <;> rfl

/-- A reference that is spelled like the plain name of a variable that the
sheet declares is a reference to that variable, and stands for what that
resolves to. -/
theorem find?_declared (s : Surroundings) (sheet : Sheet) (v : Variable)
    (hv : v ∈ (sheet.scan s.file s.dialect s.mode).records) (hp : IsPlain v.name.toList) (text : String) (value : Value)
    (h : s.reading text = .ok value) (r : Reference) (hr : r ∈ value.references) (hname : Spells s.dialect v.name r.raw) :
    s.target r = v.ident ∧
      (sheet.scan s.file s.dialect s.mode).get? (s.target r) = .some v ∧
      ∀ (settle : Ident → Resolving Bool) (p q : Progress) (w : Variable),
        p.table.idents = (sheet.scan s.file s.dialect s.mode).idents →
        (settle v.ident).run.run p = (.ok true, q) → q.table.get? v.ident = .some w →
        (s.find? settle r).run.run p = (.ok (.some (.ofVariable v.ident w.resolved w.dependencies)), q) := by
  have hident : s.target r = v.ident := by
    rw [target, name_of_spells h hr hname hp, Sheet.ident_of_scan hv]
  have hget : (sheet.scan s.file s.dialect s.mode).get? v.ident = .some v :=
    Table.get?_of_mem hv
  refine ⟨hident, hident ▸ hget, fun settle p q w hp' hsettle hw => ?_⟩
  have hlocal : p.table.contains v.ident = true := by
    rw [Table.contains_iff, ← Table.mem_idents, hp', Table.mem_idents]
    exact ⟨v, hget⟩
  have hblank : r.name.isEmpty = false := by
    rw [name_of_spells h hr hname hp]
    exact hname.ne_empty
  change Ident.ofName s.mode r.name = v.ident at hident
  unfold find?
  rw [hblank, if_neg Bool.false_ne_true, hident, run_get, if_pos hlocal, run_bind, hsettle]
  change ((get >>= _ : Resolving _).run.run q) = _
  rw [run_get, hw]
  rfl

/-- A root rule with two custom properties, the second of which refers to the
first. -/
def widths : Sheet :=
  { nodes := [.rule ":root" [.declaration "--größe" "2px" {} true, .declaration "--rand" "0 var(--größe)" {} true] {}] }

/-- The first of them. -/
def width : Variable := { ident := .ofName .debug "--größe", name := "--größe", raw := "2px", rootScoped := true }

/-- A file without imports. -/
def bare : Surroundings := ⟨.css, .debug, [], .none⟩

/-- The first is resolved. -/
def halfway : Progress := ⟨(widths.scan .none .css .debug).insert { width with resolved := "2px" }, {}⟩

theorem find?_declared_width :
    width ∈ (widths.scan .none .css .debug).records ∧ IsPlain width.name.toList ∧
      bare.reading "0 var(--größe)" = .ok (.text "0 " (.reference ⟨"--größe", "var(--größe)", .var⟩ .done)) ∧
      Spells .css width.name "var(--größe)" ∧
      bare.target ⟨"--größe", "var(--größe)", .var⟩ = width.ident ∧
      (bare.find? (fun _ => return true) ⟨"--größe", "var(--größe)", .var⟩).run.run halfway =
        (.ok (.some ("2px", [width.ident])), halfway) := by
  have hv : width ∈ (widths.scan .none .css .debug).records := by decide +kernel
  have hp : IsPlain width.name.toList := by
    have hplain : IsPlain ['-', '-', 'g', 'r', 'ö', 'ß', 'e'] := by simp [IsPlain]
    exact hplain
  have hread : bare.reading "0 var(--größe)" = .ok (.text "0 " (.reference ⟨"--größe", "var(--größe)", .var⟩ .done)) := by
    decide +kernel
  have hspells : Spells .css width.name "var(--größe)" := by
    have hn : IsName ['-', '-', 'g', 'r', 'ö', 'ß', 'e'] := ⟨"--größe", by decide +kernel⟩
    exact .var hn
  obtain ⟨hident, -, hfind⟩ := find?_declared bare widths width hv hp _ _ hread _ (List.mem_singleton.2 rfl) hspells
  have hlocals : halfway.table.idents = (widths.scan .none .css .debug).idents := by decide +kernel
  have hresolved : halfway.table.get? width.ident = .some { width with resolved := "2px" } := by decide +kernel
  exact ⟨hv, hp, hread, hspells, hident, hfind _ _ _ _ hlocals rfl hresolved⟩

/-- The escape in a name is a part of what the variable is called, but not of
what a reference refers to. -/
theorem resolve_escaped :
    Spells .css "--a\\.b" "var(--a\\.b)" ∧
      ((Sheet.parse .css .none ":root \x7b --a\\.b: red; --c: var(--a\\.b) \x7d").bind fun sheet =>
        ((Pass.scan ⟨{}, .css, [], {}⟩ sheet .none).resolve ⟨{}, .css, [], {}⟩).map fun p =>
          p.table.records.map fun v => (v.name, v.resolved)) = .ok [("--a\\.b", "red"), ("--c", "")] := by
  refine ⟨?_, by decide +kernel⟩
  have hn : IsName ['-', '-', 'a', '\\', '.', 'b'] := ⟨"--a.b", by decide +kernel⟩
  exact .var hn

end Surroundings

end ThemeVars
