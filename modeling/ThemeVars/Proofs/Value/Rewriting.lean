/-
What the rewriting of a value leaves alone. `replaced` are the references that
it replaces, where it is known of each whether it may be. `parse_lossless`: a
value is written as it was read, if no bracket is left open in it and no comment
stands before the block of an interpolation. `enclosed_parse`: then its fallbacks
are in the texts of their references.
-/
import ThemeVars.Proofs.Sheet.Printing
import ThemeVars.Proofs.Value.Naming
import ThemeVars.Proofs.Value.Placing
import ThemeVars.Proofs.Value.Sealing
import ThemeVars.Value.Rewrite

namespace ThemeVars

namespace Value

/-! ## The references that are replaced -/

/-- The references that are replaced where those that satisfy `p` may be: a
fallback is looked at only where what it is a fallback for stays. -/
def replaced (p : Reference → Bool) : Value → List Reference
  | .done => []
  | .text _ rest => rest.replaced p
  | .interpolation inner rest => inner.replaced p ++ rest.replaced p
  | .reference r rest => (if p r then [r] else []) ++ rest.replaced p
  | .guarded r fallback rest => (if p r then [r] else fallback.replaced p) ++ rest.replaced p

theorem mem_references_of_mem_replaced {p : Reference → Bool} {v : Value} {r : Reference} (h : r ∈ v.replaced p) :
    r ∈ v.references ∧ p r = true := by
  induction v with
  | done => cases h
  | text s rest ih => exact ih h
  | interpolation inner rest ihi ihr =>
    rcases List.mem_append.1 h with h | h
    · exact ⟨List.mem_append_left _ (ihi h).1, (ihi h).2⟩
    · exact ⟨List.mem_append_right _ (ihr h).1, (ihr h).2⟩
  | reference q rest ih =>
    rcases List.mem_append.1 h with h | h
    · split at h
      · rename_i hq
        cases List.mem_singleton.1 h
        exact ⟨List.mem_cons_self, hq⟩
      · cases h
    · exact ⟨List.mem_cons_of_mem _ (ih h).1, (ih h).2⟩
  | guarded q fallback rest ihf ihr =>
    rcases List.mem_append.1 h with h | h
    · split at h
      · rename_i hq
        cases List.mem_singleton.1 h
        exact ⟨List.mem_cons_self, hq⟩
      · exact ⟨List.mem_cons_of_mem _ (List.mem_append_left _ (ihf h).1), (ihf h).2⟩
    · exact ⟨List.mem_cons_of_mem _ (List.mem_append_right _ (ihr h).1), (ihr h).2⟩

/-! ## Writing as it was read -/

theorem verbatim_consText (s : String) (v : Value) : (consText s v).verbatim = s ++ v.verbatim := by
  unfold consText
  split
  · rename_i h
    rw [String.isEmpty_iff.1 h, String.empty_append]
  · split
    · rw [verbatim, verbatim, String.append_assoc]
    · rfl

theorem verbatim_append (v w : Value) : (v.append w).verbatim = v.verbatim ++ w.verbatim := by
  induction v with
  | done => exact String.empty_append.symm
  | text s rest ih => rw [append, verbatim_consText, ih, verbatim, String.append_assoc]
  | interpolation inner rest _ ih => rw [append, verbatim, ih, verbatim, String.append_assoc]
  | reference r rest ih => rw [append, verbatim, ih, verbatim, String.append_assoc]
  | guarded r fallback rest _ ih => rw [append, verbatim, ih, verbatim, String.append_assoc]

end Value

namespace Pieces

/-- Every block is closed, and no comment stands between a `#` and the curly
block after it. -/
def Whole : Pieces → Prop
  | .done => True
  | .leaf l rest =>
    (l.token = .delim '#' → (Value.curlyNext? rest).isSome = true → rest.leavesText (· == .comment) = []) ∧ rest.Whole
  | .block _ _ inner closer rest => inner.Whole ∧ closer.isSome = true ∧ rest.Whole

/-- Whether the pieces are whole can be looked up. -/
def decideWhole : (p : Pieces) → Decidable p.Whole
  | .done => .isTrue trivial
  | .leaf _ rest =>
    have := decideWhole rest
    inferInstanceAs (Decidable (_ ∧ _))
  | .block _ _ inner _ rest =>
    have := decideWhole inner
    have := decideWhole rest
    inferInstanceAs (Decidable (_ ∧ _))

instance : DecidablePred Whole := decideWhole

end Pieces

namespace Value

open Pieces (leaves)
open Sheet (AllSpelled)

variable {sigil : Option Char}

/-- Pieces as they are read from a text, and whole. -/
structure Intact (p : Pieces) : Prop where
  matched : p.Matched
  spelled : AllSpelled p
  whole : p.Whole

theorem Intact.leaf {l : Lexeme} {rest : Pieces} (h : Intact (.leaf l rest)) : Spelled l.token l.text ∧ Intact rest :=
  ⟨h.spelled.leaf.1, h.matched.2, h.spelled.leaf.2, h.whole.2⟩

theorem Intact.of_leaves {ls : List Lexeme} {rest : Pieces} (h : Intact (leaves ls rest)) : Intact rest := by
  induction ls with
  | nil => exact h
  | cons l ls ih => exact ih h.leaf.2

/-- A block that is whole is closed, and by the text that it is written with. -/
theorem Intact.block {opener : Lexeme} {bracket : Bracket} {inner rest : Pieces} {closer : Option Lexeme}
    (h : Intact (.block opener bracket inner closer rest)) :
    opener.token.opens? = .some bracket ∧ Spelled opener.token opener.text ∧ Intact inner ∧
      closer.toList.flatMap (·.text) = bracket.closer.toList ∧ Intact rest := by
  obtain ⟨hopens, -, hinner, hcloser, -, hrest⟩ := h.matched
  obtain ⟨hopener, hsinner, hscloser, hsrest⟩ := h.spelled.block
  obtain ⟨hwinner, hclosed, hwrest⟩ := h.whole
  obtain ⟨l, rfl⟩ := Option.isSome_iff_exists.1 hclosed
  refine ⟨hopens, hopener, ⟨hinner, hsinner, hwinner⟩, ?_, hrest, hsrest, hwrest⟩
  have hl := hscloser l rfl
  rw [(hcloser l rfl).1] at hl
  rw [Option.toList_some, List.flatMap_singleton]
  exact hl.closing

/-- In pieces that are whole, no comment comes between `#` and its block. -/
theorem Intact.interpolation {l opener : Lexeme} {cs : List Lexeme} {inner rest : Pieces} {closer : Option Lexeme}
    (h : Intact (.leaf l (leaves cs (.block opener .curly inner closer rest)))) (hl : l.token = .delim '#')
    (hcs : AllComments cs) : cs = [] := by
  cases cs with
  | nil => rfl
  | cons c cs =>
    have hnext : curlyNext? (leaves (c :: cs) (.block opener .curly inner closer rest)) = .some (inner, rest) :=
      curlyNext?_eq_some.2 ⟨_, opener, closer, hcs, rfl⟩
    have hnil := h.whole.1 hl (by rw [hnext]; rfl)
    have hc := hcs c List.mem_cons_self
    rw [Pieces.leaves_cons, Pieces.leavesText, if_pos hc] at hnil
    exact absurd (List.append_eq_nil_iff.1 hnil).1 h.leaf.2.leaf.1.ne_nil

theorem text_leaves (ls : List Lexeme) (p : Pieces) : (leaves ls p).text = ls.flatMap (·.text) ++ p.text := by
  rw [Pieces.text, Pieces.lexemes_leaves, List.flatMap_append]
  rfl

/-- What is read from pieces that are whole is written as they are: an
induction on how they are read. -/
theorem verbatim_of_readsAs {p : Pieces} {v : Value} (h : ReadsAs sigil p v) (hp : Intact p) :
    v.verbatim.toList = p.text := by
  induction h with
  | done => rfl
  | text _ _ ih =>
    rw [verbatim_consText, String.toList_append, String.toList_ofList, ih hp.leaf.2, Pieces.text_leaf]
  | @interpolation l cs opener inner closer rest a b hl hcs _ _ iha ihb =>
    obtain rfl := hp.interpolation hl hcs
    have hhash : l.text = ['#'] := hp.leaf.1.sign _ (by rw [hl]; rfl)
    obtain ⟨hopens, hopener, hinner, hcloser, hrest⟩ := hp.leaf.2.block
    have hbrace : opener.text = ['\x7b'] := hopener.sign _ (by rw [Sheet.opens?_curly hopens]; rfl)
    rw [verbatim, interpolated, String.toList_append, ihb hrest, Pieces.leaves_nil, Pieces.text_leaf, Pieces.text_block,
      Pieces.blockText, hhash, hbrace, hcloser, String.toList_append, String.toList_append, iha hinner]
    simp [Bracket.closer]
  | atKeyword _ _ _ ih => rw [verbatim, String.toList_append, String.toList_ofList, ih hp.leaf.2, Pieces.text_leaf]
  | @sigil l c cs m name rest v _ _ _ _ _ _ ih =>
    rw [verbatim, String.toList_append, String.toList_ofList, ih hp.leaf.2.of_leaves.leaf.2, Pieces.text_leaf, text_leaves,
      Pieces.text_leaf]
    simp only [List.append_assoc]
  | var _ _ _ ih => rw [verbatim, String.toList_append, String.toList_ofList, ih hp.block.2.2.2.2, Pieces.text_block]
  | guarded _ _ _ _ _ ih =>
    rw [verbatim, String.toList_append, String.toList_ofList, ih hp.block.2.2.2.2, Pieces.text_block]
  | block _ _ _ iha ih =>
    obtain ⟨-, -, hinner, hcloser, hrest⟩ := hp.block
    rw [verbatim_consText, verbatim_append, verbatim_consText, Pieces.text_block, Pieces.blockText, hcloser]
    simp only [String.toList_append, String.toList_ofList, iha hinner, ih hrest, List.append_assoc]

/-- No bracket is left open in the value, and no comment stands between a `#`
and the curly block after it. -/
def IsWhole (text : String) : Prop := (Pieces.ofText text.toList).Whole

instance : DecidablePred IsWhole := fun text => inferInstanceAs (Decidable (Pieces.ofText text.toList).Whole)

theorem intact_ofText {text : String} (hw : IsWhole text) : Intact (.ofText text.toList) := by
  refine ⟨Pieces.matched_ofLexemes _, fun l hl => ?_, hw⟩
  rw [Pieces.ofText, Pieces.lexemes_ofLexemes] at hl
  obtain ⟨_, hreads⟩ := (tiled_lexemes text.toList).reads hl
  exact hreads.spelled

/-- A value that is whole is written as it was read. -/
theorem verbatim_parse {text : String} {v : Value} (h : Value.parse sigil text = .ok v) (hw : IsWhole text) :
    v.verbatim = text := by
  have hread : ReadsAs sigil (.ofText text.toList) v := readsAs_iff.1 (mapError_ok.1 h)
  apply String.toList_injective
  rw [verbatim_of_readsAs hread (intact_ofText hw), Pieces.text_ofText]

/-! ## Fallbacks -/

/-- Each fallback is in the text of its reference. -/
def Enclosed : Value → Prop
  | .done => True
  | .text _ rest => rest.Enclosed
  | .interpolation inner rest => inner.Enclosed ∧ rest.Enclosed
  | .reference _ rest => rest.Enclosed
  | .guarded r fallback rest => fallback.verbatim.toList <:+: r.raw.toList ∧ fallback.Enclosed ∧ rest.Enclosed

theorem enclosed_consText (s : String) (v : Value) : (consText s v).Enclosed ↔ v.Enclosed := by
  unfold consText
  split
  · rfl
  · split <;> rfl

theorem enclosed_append (v w : Value) : (v.append w).Enclosed ↔ v.Enclosed ∧ w.Enclosed := by
  induction v with
  | done => exact (iff_of_eq (true_and _)).symm
  | text s rest ih => rw [append, enclosed_consText, ih, Enclosed]
  | interpolation inner rest _ ih => rw [append, Enclosed, ih, Enclosed, and_assoc]
  | reference r rest ih => rw [append, Enclosed, ih, Enclosed]
  | guarded r fallback rest _ ih => rw [append, Enclosed, ih, Enclosed, and_assoc, and_assoc]

theorem enclosed_of_readsAs {p : Pieces} {v : Value} (h : ReadsAs sigil p v) (hp : Intact p) : v.Enclosed := by
  induction h with
  | done => trivial
  | text _ _ ih => exact (enclosed_consText _ _).2 (ih hp.leaf.2)
  | interpolation _ _ _ _ iha ihb =>
    obtain ⟨-, -, hinner, -, hrest⟩ := hp.leaf.2.of_leaves.block
    exact ⟨iha hinner, ihb hrest⟩
  | atKeyword _ _ _ ih => exact ih hp.leaf.2
  | sigil _ _ _ _ _ _ ih => exact ih hp.leaf.2.of_leaves.leaf.2
  | var _ _ _ ih => exact ih hp.block.2.2.2.2
  | @guarded opener bracket inner closer rest name fallback a v _ hparts ha _ iha ih =>
    obtain ⟨-, -, hinner, -, hrest⟩ := hp.block
    obtain ⟨⟨front, rfl⟩, -⟩ := varParts_guarded hparts
    refine ⟨?_, iha hinner.of_leaves, ih hrest⟩
    rw [verbatim_of_readsAs ha hinner.of_leaves, String.toList_ofList, Pieces.blockText, text_leaves]
    exact ⟨opener.text ++ front.flatMap (·.text), closer.toList.flatMap (·.text), by simp⟩
  | block _ _ _ iha ih =>
    obtain ⟨-, -, hinner, -, hrest⟩ := hp.block
    rw [enclosed_consText, enclosed_append, enclosed_consText]
    exact ⟨iha hinner, ih hrest⟩

/-- In a value that is whole, fallbacks stand in their references. -/
theorem enclosed_parse {text : String} {v : Value} (h : Value.parse sigil text = .ok v) (hw : IsWhole text) : v.Enclosed :=
  enclosed_of_readsAs (readsAs_iff.1 (mapError_ok.1 h)) (intact_ofText hw)

/-! ## Keeping every reference -/

theorem render_raw (v : Value) : v.render (·.raw) = v.verbatim := by
  induction v with
  | done => rfl
  | text s rest ih => rw [render, verbatim, ih]
  | interpolation inner rest ihi ihr => rw [render, verbatim, ihi, ihr]
  | reference r rest ih => rw [render, verbatim, ih]
  | guarded r fallback rest _ ih => rw [render, verbatim, ih]

variable {σ ε : Type} {f : Reference → Bool → StateT σ (Except ε) (Option String)}

/-- Whatever it is asked about is kept; what it keeps note of may change. -/
def Keeps (f : Reference → Bool → StateT σ (Except ε) (Option String)) : Prop :=
  ∀ r inside s, ∃ t, (f r inside).run s = .ok (.none, t)

/-- Where every reference is kept, the value is written as it stands: a
fallback comes out as it went in, so that the reference before it stays as it
was written. -/
theorem rewrite_of_keeps (hf : Keeps f) (v : Value) (inside : Bool) (s : σ) :
    ∃ t, (v.rewrite f inside).run s = .ok (v.verbatim, t) := by
  induction v generalizing inside s with
  | done => exact ⟨s, rfl⟩
  | text a rest ih =>
    obtain ⟨t, ht⟩ := ih inside s
    exact ⟨t, bind_ok.2 ⟨_, ht, rfl⟩⟩
  | interpolation inner rest ihi ihr =>
    obtain ⟨t, ht⟩ := ihi true s
    obtain ⟨u, hu⟩ := ihr inside t
    exact ⟨u, bind_ok.2 ⟨_, ht, bind_ok.2 ⟨_, hu, rfl⟩⟩⟩
  | reference r rest ih =>
    obtain ⟨t, ht⟩ := hf r inside s
    obtain ⟨u, hu⟩ := ih inside t
    exact ⟨u, bind_ok.2 ⟨_, ht, bind_ok.2 ⟨_, hu, rfl⟩⟩⟩
  | guarded r fallback rest ihf ihr =>
    obtain ⟨t, ht⟩ := hf r inside s
    obtain ⟨u, hu⟩ := ihf inside t
    obtain ⟨w, hw⟩ := ihr inside u
    have hkept : (if fallback.verbatim == fallback.verbatim then r.raw else varText r.name fallback.verbatim.trimmedEnd) =
        r.raw := if_pos (beq_self_eq_true _)
    refine ⟨w, bind_ok.2 ⟨_, ht, bind_ok.2 ⟨_, hu, bind_ok.2 ⟨_, hw, ?_⟩⟩⟩⟩
    rw [verbatim, hkept]
    rfl

/-- A value that is whole loses nothing by being read: written as it was read,
with each reference as its own text, or through a rewriting that keeps every
reference, it comes out as it was. -/
theorem parse_lossless {text : String} {v : Value} (h : Value.parse sigil text = .ok v) (hw : IsWhole text) :
    v.verbatim = text ∧ v.render (·.raw) = text ∧
      ∀ {σ ε : Type} (f : Reference → Bool → StateT σ (Except ε) (Option String)), Keeps f →
        ∀ s : σ, ∃ t, (v.rewrite f false).run s = .ok (text, t) := by
  have hverbatim := verbatim_parse h hw
  refine ⟨hverbatim, (render_raw v).trans hverbatim, fun f hf s => ?_⟩
  obtain ⟨t, ht⟩ := rewrite_of_keeps hf v false s
  exact ⟨t, hverbatim ▸ ht⟩

/-- A callback that keeps every reference and notes what it is asked about. -/
def noting (r : Reference) (inside : Bool) : StateT (List (String × Bool)) (Except String) (Option String) := do
  modify (· ++ [(r.name, inside)])
  return .none

theorem keeps_noting : Keeps noting := fun r inside s => ⟨s ++ [(r.name, inside)], rfl⟩

theorem parse_lossless_nested :
    ∃ v, Value.parse (.some '$') "1 #\x7b[$a]\x7d var( --b, rgb($c 'd') )" = .ok v ∧
      v.references.map (·.name) = ["$a", "--b", "$c"] ∧ IsWhole "1 #\x7b[$a]\x7d var( --b, rgb($c 'd') )" ∧
      v.verbatim = "1 #\x7b[$a]\x7d var( --b, rgb($c 'd') )" ∧
      v.render (·.raw) = "1 #\x7b[$a]\x7d var( --b, rgb($c 'd') )" ∧
      ∃ t, (v.rewrite noting false).run [] = .ok ("1 #\x7b[$a]\x7d var( --b, rgb($c 'd') )", t) := by
  obtain ⟨v, hv, hnames⟩ : ∃ v, Value.parse (.some '$') "1 #\x7b[$a]\x7d var( --b, rgb($c 'd') )" = .ok v ∧
      v.references.map (·.name) = ["$a", "--b", "$c"] := ok_of_toOption (by decide +kernel)
  obtain ⟨hverbatim, hrender, hrewrite⟩ := parse_lossless hv (by decide +kernel)
  exact ⟨v, hv, hnames, by decide +kernel, hverbatim, hrender, hrewrite noting keeps_noting []⟩

end Value

end ThemeVars
