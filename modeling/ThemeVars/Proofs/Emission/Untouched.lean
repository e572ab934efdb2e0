/-
What writing in place leaves alone. `emit_untouched`: a file keeps its frame,
save for a rule and a comment, and a value stays as it is unless a reference in
it is replaced or a run time declaration takes its place. Without a theme no
variable follows one, so that a file is written as it is.
-/
import ThemeVars.Proofs.Emission.InPlace
import ThemeVars.Proofs.Variable.Classification

namespace ThemeVars

open Node (settingsAll unvaluedAll)

/-! ## Without a theme -/

namespace Classifier

variable {c : Classifier}

theorem isTheme_of_empty (h : c.theme.records = []) (ident : Ident) : c.isTheme ident = false := by
  have hnone : c.theme.contains ident = false := by rw [Table.contains_eq_false, Table.get?_eq, h, List.find?_nil]
  rw [isTheme, hnone, Bool.and_false]

/-- Without a theme nothing follows it: the empty set is closed under following. -/
theorem not_mem_follows_of_empty (h : c.theme.records = []) (ident : Ident) : ident ∉ c.follows := by
  have hclosed : c.following ∅ ≤ ∅ := by
    intro i hi
    obtain ⟨v, -, hne, hall⟩ := hi
    obtain ⟨d, hd⟩ := List.exists_mem_of_ne_nil _ hne
    refine (hall d hd).resolve_left ?_
    rw [isTheme_of_empty h]
    exact Bool.false_ne_true
  exact fun hi => c.following.lfp_le hclosed hi

theorem classify_of_empty (h : c.theme.records = []) : c.classify.theme = [] ∧ c.classify.reference = [] := by
  constructor
  · have hnone : c.theme.idents = [] := by rw [Table.idents, h, List.map_nil]
    exact congrArg (List.filter c.isCandidate) hnone
  · exact List.eq_nil_iff_forall_not_mem.2 fun i hi => not_mem_follows_of_empty h i (mem_reference.1 hi)

end Classifier

namespace Emitter

variable {e : Emitter} {nodes : List Node}

/-- There is nothing that a reference could be replaced by. -/
theorem isReplaced_of_empty (h : e.context.theme.records = []) (hr : e.classification.reference = []) (cp : Bool)
    (r : Reference) : e.isReplaced cp r = false := by
  have htheme : e.classifier.isTheme (e.target r) = false := Classifier.isTheme_of_empty h _
  simp [isReplaced, isThemes, isLocals, Classifier.isCandidate, htheme, hr]

/-- There is nothing that could be in use. -/
theorem not_inUse_of_empty (nodes : List Node) (hr : e.classification.reference = []) (i : Ident) : ¬ e.InUse nodes i := by
  intro hi
  have hmem := hi.mem_reference.1
  rw [hr] at hmem
  cases hmem

/-! ## What is touched -/

/-- What can have become of a declaration: another value, if a reference in it is
replaced or if it is a property of the root element that stands for a variable in
use, and if it is no definition of a variable of the dialect's own. -/
structure Touched (e : Emitter) (nodes : List Node) (before after : Setting) : Prop where
  depth : after.depth = before.depth
  property : after.property = before.property
  value : after.value = before.value ∨ e.isDefinition before.property = false ∧
    (e.Qualifies before.property before.value ∨
      before.depth = .root ∧ ∃ i, e.InUse nodes i ∧ i.text = before.property)

/-- The ident of a variable in use is no name of a variable of the dialect's own. -/
theorem isDefinition_of_inUse {i : Ident} (h : e.InUse nodes i) : e.isDefinition i.text = false := by
  obtain ⟨-, r, rfl⟩ := h.mem_reference
  have hhead : (e.target r).text.toList.head? = .some '-' := by
    rw [target, Ident.ofName, String.toList_ofList]
    rfl
  rw [isDefinition, hhead]
  cases e.context.dialect <;> rfl

/-- A declaration stays if no reference in it is replaced and nothing is in use. -/
theorem Touched.eq {before after : Setting} (h : e.Touched nodes before after)
    (hq : ¬ e.Qualifies before.property before.value) (hu : ∀ i, ¬ e.InUse nodes i) : before = after := by
  have hvalue : after.value = before.value :=
    h.value.resolve_right fun hno => hno.2.elim hq fun ⟨_, i, hi, _⟩ => hu i hi
  obtain ⟨depth, property, value⟩ := before
  obtain ⟨depth', property', value'⟩ := after
  cases h.depth
  cases h.property
  cases hvalue
  rfl

/-- What rewriting alone makes of a declaration. -/
theorem Rewritten.touched {before after : Setting} (h : e.Rewritten before after)
    (hw : Value.IsWhole (Value.stripPriority before.value)) : e.Touched nodes before after := by
  refine ⟨h.depth, h.property, ?_⟩
  by_cases hstays : e.Stays before.property before.value
  · exact .inl (h.value hstays)
  · simp only [Stays, not_or, Bool.not_eq_true] at hstays
    exact .inr ⟨hstays.1, .inl (by_contra fun hq => hstays.2 ⟨hw, hq⟩)⟩

/-- Writing over a declaration touches what stands for a variable in use. -/
theorem InPlace.touched {rewritten written after : List Node} {declared left : List (Ident × String)} {index : Nat}
    {note : Option Node} (h : e.InPlace nodes rewritten written declared left index note after)
    (hw : ∀ d ∈ settingsAll .top nodes, Value.IsWhole (Value.stripPriority d.value)) :
    List.Forall₂ (e.Touched nodes) (settingsAll .top nodes) (settingsAll .top written) := by
  have hsame := Node.settingsAll_unvalued .top h.overwritten.frame
  have hlength : (settingsAll .top written).length = (settingsAll .top rewritten).length := by
    simpa using congrArg List.length hsame
  obtain ⟨hlength', hrewritten⟩ := List.forall₂_iff_get.1 h.values
  refine List.forall₂_iff_get.2 ⟨hlength'.trans hlength.symm, fun k hk hk' => ?_⟩
  have hkept := hrewritten k hk (hlength ▸ hk')
  simp only [List.get_eq_getElem] at hkept ⊢
  by_cases hover : ∃ d ∈ declared, rootIndex? d.1.text rewritten = .some k
  · obtain ⟨d, hd, hindex⟩ := hover
    obtain ⟨r, hr, hdepth, hproperty⟩ := property_of_rootIndex? hindex
    obtain ⟨_, hrk⟩ := List.getElem?_eq_some_iff.1 hr
    rw [hrk] at hkept
    have hunvalued : ((settingsAll .top written)[k]).unvalued = r.unvalued := by
      have hk := congrArg (·[k]?) hsame
      simpa [hk', hr] using hk
    have hinUse : e.InUse nodes d.1 := (h.inUse d.1).1 (List.mem_map_of_mem hd)
    have hname : d.1.text = ((settingsAll .top nodes)[k]).property := hproperty.symm.trans hkept.property
    exact ⟨(congrArg Setting.depth hunvalued).trans hkept.depth, (congrArg Setting.property hunvalued).trans hkept.property,
      .inr ⟨hname ▸ isDefinition_of_inUse hinUse, .inr ⟨hkept.depth.symm.trans hdepth, d.1, hinUse, hname⟩⟩⟩
  · have hrest := h.overwritten.others k fun d hd hindex => hover ⟨d, hd, hindex⟩
    have heq : (settingsAll .top written)[k] = (settingsAll .top rewritten)[k] := by
      simpa [hk', hlength ▸ hk'] using hrest
    rw [heq]
    exact hkept.touched (hw _ (List.getElem_mem hk))

/-- Without a theme, writing in place leaves everything alone. -/
theorem InPlace.eq_of_empty {rewritten written after : List Node} {declared left : List (Ident × String)} {index : Nat}
    {note : Option Node} (h : e.InPlace nodes rewritten written declared left index note after)
    (hw : ∀ d ∈ settingsAll .top nodes, Value.IsWhole (Value.stripPriority d.value))
    (htheme : e.context.theme.records = []) (hc : e.classification.theme = [] ∧ e.classification.reference = []) :
    after = nodes := by
  have hunused := not_inUse_of_empty nodes hc.2
  have hnote : note = .none := Option.eq_none_iff_forall_not_mem.2 fun n hn => (h.comment n hn).1 hc.1
  have hleft : left = [] := by
    rw [h.overwritten.left, List.filter_eq_nil_iff]
    exact fun d hd _ => hunused d.1 ((h.inUse d.1).1 (List.mem_map_of_mem hd))
  have hsettings : settingsAll .top nodes = settingsAll .top written := by
    refine List.forall₂_eq_eq_eq ▸ (h.touched hw).imp fun before after ht => ht.eq ?_ hunused
    rintro ⟨v, -, r, -, hr⟩
    rw [isReplaced_of_empty htheme hc.2] at hr
    cases hr
  have hnodes : written = nodes := Node.eq_of_unvaluedAll .top _ _ (h.overwritten.frame.trans h.frame) hsettings.symm
  rw [h.result, hleft, hnote, hnodes]
  simp [rootRule?, Node.joined]

end Emitter

namespace Pass

/-- In a file that is written in place, a rule and a comment are added at most,
and what stood first begins on a line of its own if the rule is put before it.
The frame of the file is kept, and so is every value in which no reference is
replaced and whose property does not stand for a variable in use. Where there is
no theme, the file is as it was. Values are taken to be whole, priority markers
aside: no bracket is left open, and no comment stands between `#` and a block.
In Scss, custom properties of root rules are changed after this. -/
theorem emit_untouched (context : PassContext) (hd : context.dialect ≠ .scss) (p : Pass)
    (hw : ∀ d ∈ settingsAll .top p.sheet.nodes, Value.IsWhole (Value.stripPriority d.value)) {out : Output}
    (h : p.emit context .inPlace = .ok out) :
    (∃ (front : List Node) (rule : Option Node) (back : List Node) (note : Option Node),
      out.sheet = { p.sheet with nodes := Node.joined front rule back ++ note.toList } ∧
        (∀ r ∈ rule, ∃ children, r = Node.newRule context.settings.rootSelector children) ∧
        (∀ n ∈ note, ∃ text, n = Node.comment text "\n\n" false) ∧
        unvaluedAll (front ++ back) = unvaluedAll p.sheet.nodes ∧
        List.Forall₂ ((p.emitter context).Touched p.sheet.nodes) (settingsAll .top p.sheet.nodes)
          (settingsAll .top (front ++ back))) ∧
      (context.theme.records = [] → out.sheet = p.sheet) := by
  obtain ⟨rewritten, written, declared, left, index, note, after, hspec, hout, -⟩ := emit_inPlace h
  rw [show interpolated context _ = _ from if_neg (by simpa using hd)] at hout
  refine ⟨⟨written.take index, (p.emitter context).rootRule? left, written.drop index, note, hspec.result ▸ hout,
    fun r hr => ?_, fun n hn => (hspec.comment n hn).2, ?_, ?_⟩, fun htheme => ?_⟩
  · unfold Emitter.rootRule? at hr
    split at hr
    · cases hr
    · cases hr
      exact ⟨_, rfl⟩
  · rw [List.take_append_drop]
    exact hspec.overwritten.frame.trans hspec.frame
  · rw [List.take_append_drop]
    exact hspec.touched hw
  · have hclassify := Classifier.classify_of_empty (c := ⟨p.table, context.theme, context.settings.onlyColor⟩) htheme
    rw [hout, hspec.eq_of_empty hw htheme hclassify]

/-- A theme of one color, which is listed where it is used. -/
def framing : PassContext :=
  let theme : Table :=
    .ofList [{ ident := .ofName .debug "--paint", name := "--paint", raw := "red", resolved := "red", parsed := true }]
  ⟨{ documentTheme := true }, .css, [theme], .merged [theme]⟩

/-- A variable that follows it, a value with a reference to the variable, and one
without. -/
def framed : Sheet where
  nodes := [.rule ":root" [.declaration "--line" "1px var(--paint)" { before := " ", between := ": ", after := " " } false]
      { between := " " },
    .rule "a" [.declaration "border" "var(--line, 0)" { before := " ", between := ": " } true,
        .declaration "margin" "calc(1px + var(--gap, 2px)) !important"
          { before := " ", between := ": ", after := " " } false]
      { before := "\n", between := " " }]

theorem emit_untouched_margin :
    framing.dialect ≠ .scss ∧ (∀ d ∈ settingsAll .top framed.nodes, Value.IsWhole (Value.stripPriority d.value)) ∧
      ∃ p out, (scan framing framed .none).resolve framing = .ok p ∧ p.emit framing .inPlace = .ok out ∧
        out.sheet.print = ":root \x7b --line: 1px var(--paint-d571009b, red) \x7d" ++
          "\n:root \x7b\n  --line-14f9fff4: 1px var(--paint-d571009b, red);\n\x7d" ++
          "\na \x7b border: var(--line-14f9fff4, 1px red); margin: calc(1px + var(--gap, 2px)) !important \x7d" ++
          "\n\n/* themeshift theme variables\n:root \x7b\n  --paint-d571009b: red; // --paint\n\x7d\n*/" ∧
        ∃ (front : List Node) (rule : Option Node) (back : List Node) (note : Option Node),
          out.sheet = { p.sheet with nodes := Node.joined front rule back ++ note.toList } ∧
            unvaluedAll (front ++ back) = unvaluedAll framed.nodes ∧
            List.Forall₂ ((p.emitter framing).Touched framed.nodes) (settingsAll .top framed.nodes)
              (settingsAll .top (front ++ back)) := by
  have hd : framing.dialect ≠ .scss := by decide
  have hw : ∀ d ∈ settingsAll .top framed.nodes, Value.IsWhole (Value.stripPriority d.value) := by decide +kernel
  have hrun : ((scan framing framed .none).resolve framing >>= fun p => (p.emit framing .inPlace).map (·.sheet.print)) =
      .ok (":root \x7b --line: 1px var(--paint-d571009b, red) \x7d" ++
        "\n:root \x7b\n  --line-14f9fff4: 1px var(--paint-d571009b, red);\n\x7d" ++
        "\na \x7b border: var(--line-14f9fff4, 1px red); margin: calc(1px + var(--gap, 2px)) !important \x7d" ++
        "\n\n/* themeshift theme variables\n:root \x7b\n  --paint-d571009b: red; // --paint\n\x7d\n*/") := by
    decide +kernel
  obtain ⟨p, hp, hemit⟩ := bind_ok.1 hrun
  obtain ⟨out, hout, hprint⟩ := map_ok.1 hemit
  have hsheet : p.sheet = framed := (resolve_undone hp).2.1
  obtain ⟨⟨front, rule, back, note, hnodes, -, -, hframe, htouched⟩, -⟩ :=
    emit_untouched framing hd p (hsheet ▸ hw) hout
  rw [hsheet] at hframe htouched
  exact ⟨hd, hw, p, out, hp, hout, hprint, front, rule, back, note, hnodes, hframe, htouched⟩

end Pass

end ThemeVars
