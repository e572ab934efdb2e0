/-
What a sheet becomes that is written in place. `inPlace_spec`: its nodes with
the references replaced, the run time declarations over those of the same ident
or in a rule, and a comment. `emit_declares`: each variable in use is declared,
once, where all that it needs is declared before it, and referred to in what is
written.
-/
import ThemeVars.Proofs.Emission.Declarations
import ThemeVars.Proofs.Emission.Placement
import ThemeVars.Proofs.Emission.Spacing

namespace ThemeVars

open Emission (noted)
open Node (settingsAll unvaluedAll)

namespace Emitter

variable {e : Emitter} {s t : Emission}

/-- The rule for the declarations that are left over, if there are any. -/
def rootRule? (e : Emitter) (left : List (Ident × String)) : Option Node :=
  if left.isEmpty then .none
  else
    .some (Node.newRule e.context.settings.rootSelector
      (left.map fun (ident, value) => Node.newDeclaration ident.text value))

/-- The variable is one whose declaration is left over, or one that such a
variable depends on. -/
def Anchors (e : Emitter) (left : List (Ident × String)) (ident : Ident) : Prop :=
  ∃ d ∈ left, ident = d.1 ∨ ∃ v, e.table.get? d.1 = .some v ∧ ident ∈ v.dependencies

/-- What has become of nodes that are written in place. `rewritten` are the
nodes with their references replaced, `declared` the run time declarations,
`written` the nodes with these written over declarations that are there, `left`
those for which there is none, and `index` the place of the rule for them. -/
structure InPlace (e : Emitter) (nodes rewritten written : List Node) (declared left : List (Ident × String)) (index : Nat)
    (note : Option Node) (after : List Node) : Prop where
  rewriting : ∃ s t, (e.rewriteNodes nodes).run s = .ok (rewritten, t)
  frame : unvaluedAll rewritten = unvaluedAll nodes
  values : List.Forall₂ e.Rewritten (settingsAll .top nodes) (settingsAll .top rewritten)
  /-- A variable is declared if it is in use, once, and in the order of first uses. -/
  nodup : (declared.map Prod.fst).Nodup
  inUse : ∀ i, i ∈ declared.map Prod.fst ↔ e.InUse nodes i
  order : declared.map Prod.fst = (e.usesOf nodes ++ (declared.map Prod.fst).flatMap e.usesThrough).eraseDups
  runtime : ∀ d ∈ declared, e.HasValue d.1 d.2
  mentions : ∀ d ∈ declared, e.MentionsThrough d.1 d.2
  overwritten : Overwritten rewritten declared written left
  /-- The rule comes after every import and every record that it needs. -/
  imports : ∀ j node, nodes[j]? = .some node → node.isImport = true → j < index
  anchors : ∀ i, e.Anchors left i → ∀ v, e.table.get? i = .some v → v.position < index
  comment : ∀ n ∈ note, e.classification.theme ≠ [] ∧ ∃ text, n = .comment text "\n\n" false
  result : after = Node.joined (written.take index) (e.rootRule? left) (written.drop index) ++ note.toList

/-- Where no bracket is left open, what is in use is referred to: in the nodes that
are rewritten, or in a run time value. -/
theorem InPlace.mentioned {nodes rewritten written after : List Node} {declared left : List (Ident × String)} {index : Nat}
    {note : Option Node} (h : e.InPlace nodes rewritten written declared left index note after)
    (hnodes : ∀ d ∈ settingsAll .top nodes, Value.IsWhole (Value.stripPriority d.value))
    (hrecords : ∀ v ∈ e.table.records, Value.IsWhole (Value.stripPriority v.raw)) {i : Ident} (hi : e.InUse nodes i) :
    (∃ d ∈ settingsAll .top rewritten, e.Mentions i d.value) ∨ ∃ d ∈ declared, e.Mentions i d.2 := by
  cases hi with
  | written hi =>
    obtain ⟨d, hd, hi⟩ := List.mem_flatMap.1 hi
    obtain ⟨hlength, hrewritten⟩ := List.forall₂_iff_get.1 h.values
    obtain ⟨⟨k, hk⟩, rfl⟩ := List.mem_iff_get.1 hd
    have hk' : k < (settingsAll .top rewritten).length := hlength ▸ hk
    exact .inl ⟨_, List.get_mem _ ⟨k, hk'⟩, (hrewritten k hk hk').mentions (hnodes _ hd) i hi⟩
  | @through i j hj hi =>
    obtain ⟨d, hd, rfl⟩ := List.mem_map.1 ((h.inUse j).2 hj)
    cases hv : e.table.get? d.1 with
    | none =>
      rw [usesThrough, hv] at hi
      cases hi
    | some v => exact .inr ⟨d, hd, h.mentions d hd v hv (hrecords v (Table.mem_of_get? hv)) i hi⟩

theorem isImport_of_unvaluedAll {a b : List Node} (h : unvaluedAll a = unvaluedAll b) {j : Nat} {node : Node}
    (hj : b[j]? = .some node) (hi : node.isImport = true) : ∃ node', a[j]? = .some node' ∧ node'.isImport = true := by
  have hkept (n : Node) : n.unvalued.isImport = n.isImport := by cases n <;> rfl
  have hget := congrArg (·[j]?) h
  simp only [Node.unvaluedAll_eq, List.getElem?_map, hj, Option.map_some] at hget
  obtain ⟨node', hnode', heq⟩ := Option.map_eq_some_iff.1 hget
  exact ⟨node', hnode', by rw [← hkept, heq, hkept, hi]⟩

/-- What declaring does with the nodes. -/
theorem declareReferences_run {sheet after : Sheet} (h : (e.declareReferences sheet).run s = .ok (after, t)) :
    ∃ declared written left index,
      (e.runtimeDeclarations e.classification.reference 0).run s = .ok (declared, t) ∧
        overwrite sheet.nodes declared = (written, left) ∧
        (∀ j node, written[j]? = .some node → node.isImport = true → j < index) ∧
        (∀ i, e.Anchors left i → ∀ v, e.table.get? i = .some v → v.position < index) ∧
        after = { sheet with nodes := Node.joined (written.take index) (e.rootRule? left) (written.drop index) } := by
  unfold declareReferences at h
  rw [StateT.run_bind] at h
  obtain ⟨⟨declared, u⟩, hdeclared, h⟩ := bind_ok.1 h
  generalize ho : overwrite sheet.nodes declared = o at h
  obtain ⟨written, left⟩ := o
  let anchors := left.flatMap fun d => d.1 :: (e.table.get? d.1).elim [] (·.dependencies)
  let index := insertionIndex { sheet with nodes := written } e.table anchors
  have hanchors : ∀ i, e.Anchors left i → i ∈ anchors := by
    rintro i ⟨d, hd, hi⟩
    refine List.mem_flatMap.2 ⟨d, hd, ?_⟩
    rcases hi with rfl | ⟨v, hv, hi⟩
    · exact List.mem_cons_self
    · rw [hv]
      exact List.mem_cons_of_mem _ hi
  have hafter : after = { sheet with nodes := Node.joined (written.take index) (e.rootRule? left) (written.drop index) } ∧
      u = t := by
    by_cases hleft : left.isEmpty = true
    · simp only [hleft, if_true] at h
      cases h
      rw [rootRule?, if_pos hleft, Node.joined, List.take_append_drop]
      exact ⟨rfl, rfl⟩
    · simp only [if_neg hleft] at h
      cases h
      rw [Node.insertAt_eq, rootRule?, if_neg hleft]
      exact ⟨rfl, rfl⟩
  obtain ⟨rfl, rfl⟩ := hafter
  exact ⟨declared, written, left, index, hdeclared, ho,
    fun j node hj hi => lt_insertionIndex_of_import { sheet with nodes := written } e.table anchors hj hi,
    fun i hi v hv => position_lt_insertionIndex (hanchors i hi) hv _, rfl⟩

/-- Documenting the theme adds a comment at most. -/
theorem brings_documentTheme (sheet : Sheet) :
    Brings (e.documentTheme sheet) [] fun after => ∃ note : Option Node,
      (∀ n ∈ note, e.classification.theme ≠ [] ∧ ∃ text, n = .comment text "\n\n" false) ∧
        after = { sheet with nodes := sheet.nodes ++ note.toList } := by
  have hnone : ∃ note : Option Node,
      (∀ n ∈ note, e.classification.theme ≠ [] ∧ ∃ text, n = .comment text "\n\n" false) ∧
        sheet = { sheet with nodes := sheet.nodes ++ note.toList } :=
    ⟨.none, fun _ h => (nomatch h), by simp⟩
  unfold documentTheme
  split
  · exact brings_pure hnone
  · rename_i htheme
    refine (brings_themeLines _).map fun lines _ => ⟨.some _, fun n hn => ?_, rfl⟩
    cases hn
    exact ⟨fun hnil => htheme (by simp [hnil]), _, rfl⟩

theorem brings_comment (sheet : Sheet) :
    Brings (if e.context.settings.documentTheme && !e.isThemeFile then e.documentTheme sheet else return sheet) []
      fun after => ∃ note : Option Node,
        (∀ n ∈ note, e.classification.theme ≠ [] ∧ ∃ text, n = .comment text "\n\n" false) ∧
          after = { sheet with nodes := sheet.nodes ++ note.toList } := by
  split
  · exact brings_documentTheme sheet
  · exact brings_pure ⟨.none, fun _ h => (nomatch h), by simp⟩

/-- From this state, the nodes are rewritten so, and then the variables in use
declared so. -/
def Gives (e : Emitter) (s : Emission) (nodes rewritten : List Node) (declared : List (Ident × String)) : Prop :=
  ∃ t u, (e.rewriteNodes nodes).run s = .ok (rewritten, t) ∧
    (e.runtimeDeclarations e.classification.reference 0).run t = .ok (declared, u)

theorem inPlace_spec (he : e.Backed) {sheet after : Sheet} (hused : s.used = []) (htold : s.log.declarations = [])
    (h : (e.inPlace sheet).run s = .ok (after, t)) :
    ∃ rewritten written declared left index note,
      e.InPlace sheet.nodes rewritten written declared left index note after.nodes ∧
        after = { sheet with nodes := after.nodes } ∧ t.log.declarations = declared ∧
        e.Gives s sheet.nodes rewritten declared := by
  unfold inPlace at h
  rw [StateT.run_bind] at h
  obtain ⟨⟨rewritten, u⟩, hrewritten, h⟩ := bind_ok.1 h
  rw [StateT.run_bind] at h
  obtain ⟨⟨declaring, w⟩, hdeclaring, h⟩ := bind_ok.1 h
  obtain ⟨⟨hframe, hvalues⟩, huses, hlog⟩ := brings_rewriteNodes he .top sheet.nodes s rewritten u hrewritten
  change u.used = (e.usesOf sheet.nodes).foldl noted s.used at huses
  rw [hused] at huses
  obtain ⟨declared, written, left, index, hdeclared, hover, himports, hanchors, rfl⟩ := declareReferences_run hdeclaring
  have hnone : u.log.declarations = [] := by
    rw [Log.declarations, hlog]
    exact htold
  have hc : e.Collected u 0 declared w :=
    runtimeDeclarations_spec he (pending_start huses) (by simp [hnone]) hdeclared
  have hidents : declared.map Prod.fst = w.used := hc.idents
  have hnodup : (declared.map Prod.fst).Nodup := hidents ▸ hc.nodup
  have hoverwritten : Overwritten rewritten declared written left := by
    have hspec := overwrite_spec hnodup rewritten
    rwa [show overwrite rewritten declared = (written, left) from hover] at hspec
  obtain ⟨⟨note, hnote, rfl⟩, -, hlog'⟩ := brings_comment _ w after t h
  refine ⟨rewritten, written, declared, left, index, note, ?_, rfl, ?_, u, w, hrewritten, hdeclared⟩
  · refine ⟨⟨s, u, hrewritten⟩, hframe, hvalues, hnodup, fun i => hidents ▸ hc.inUse huses i, hidents ▸ hc.order huses,
      hc.values, hc.mentions, hoverwritten, fun j node hj hi => ?_, hanchors, hnote, rfl⟩
    obtain ⟨node', hj', hi'⟩ := isImport_of_unvaluedAll (hoverwritten.frame.trans hframe) hj hi
    exact himports j node' hj' hi'
  · rw [Log.declarations, hlog']
    exact hc.told.trans (by rw [hnone, List.nil_append])

end Emitter

namespace Pass

variable {context : PassContext} {p : Pass} {out : Output}

theorem backed_emitter (context : PassContext) (p : Pass) : (p.emitter context).Backed := by
  intro i hi
  obtain ⟨v, hv⟩ := Table.mem_idents.1 (List.mem_of_mem_filter hi : i ∈ p.table.idents)
  exact Table.contains_iff.2 ⟨v, hv⟩

theorem emit_inPlace (h : p.emit context .inPlace = .ok out) :
    ∃ rewritten written declared left index note after,
      (p.emitter context).InPlace p.sheet.nodes rewritten written declared left index note after ∧
        out.sheet = interpolated context { p.sheet with nodes := after } ∧ out.log.declarations = declared ∧
        ∃ s, ((p.emitter context).tellContext (p.classify context).context).run { memo := p.memo } = .ok ((), s) ∧
          (p.emitter context).Gives s p.sheet.nodes rewritten declared := by
  obtain ⟨after, s, t, htell, hinPlace, rfl⟩ := emit_ok h
  obtain ⟨-, hused, hlog⟩ := Emitter.brings_tellContext _ _ _ s htell
  have htold : s.log.declarations = [] := by
    rw [Log.declarations, hlog]
    rfl
  obtain ⟨rewritten, written, declared, left, index, note, hspec, hafter, hdeclared, hgives⟩ :=
    Emitter.inPlace_spec (backed_emitter context p) hused htold hinPlace
  exact ⟨rewritten, written, declared, left, index, note, after.nodes, hspec, congrArg (interpolated context) hafter,
    hdeclared, s, htell, hgives⟩

/-- In a file that is written in place, a reference variable is declared at run
time if it is in use, and then once: the loop that collects those in use ends,
each has the place of the first declaration of its ident in the rules of the
root element, or else one in a new rule, of each there is a message in the order
of first uses, and the rule stands after the imports and after everything that
it needs. Where no bracket is left open in a value, each in use is referred to in
what is written. -/
theorem emit_declares (context : PassContext) (sheet : Sheet) (file : Option Path) {p : Pass} {out : Output}
    (hp : (scan context sheet file).resolve context = .ok p) (h : p.emit context .inPlace = .ok out) :
    (∀ beyond s, s.used = [] →
      ((p.emitter context).rewriteNodes sheet.nodes >>= fun _ =>
          (p.emitter context).declarationsWithin beyond (p.emitter context).classification.reference.length 0).run s =
        ((p.emitter context).rewriteNodes sheet.nodes >>= fun _ =>
          (p.emitter context).runtimeDeclarations (p.emitter context).classification.reference 0).run s) ∧
      ∃ rewritten written declared left index note after,
        (p.emitter context).InPlace sheet.nodes rewritten written declared left index note after ∧
          out.sheet = interpolated context { sheet with nodes := after } ∧
          out.log.declarations = declared ∧
          ((∀ d ∈ settingsAll .top sheet.nodes, Value.IsWhole (Value.stripPriority d.value)) →
            (∀ v ∈ p.table.records, Value.IsWhole (Value.stripPriority v.raw)) →
            ∀ i, (p.emitter context).InUse sheet.nodes i →
              (∃ d ∈ settingsAll .top rewritten, (p.emitter context).Mentions i d.value) ∨
                ∃ d ∈ declared, (p.emitter context).Mentions i d.2) ∧
          ∀ j node, sheet.nodes[j]? = .some node →
            (node.isImport = true ∨
              ∃ i, (p.emitter context).Anchors left i ∧ node.Declares context.dialect context.settings.identMode i) →
            j < index := by
  have hsheet := (resolve_undone hp).2.1
  have he := backed_emitter context p
  refine ⟨fun beyond s hs => ?_, ?_⟩
  · rw [StateT.run_bind, StateT.run_bind]
    refine bind_congr_ok fun ⟨rewritten, t⟩ hrewritten => ?_
    obtain ⟨-, hused, -⟩ := Emitter.brings_rewriteNodes he .top sheet.nodes s rewritten t hrewritten
    rw [hs] at hused
    exact Emitter.declarationsWithin_eq he beyond (Emitter.pending_start hused) (by omega)
  · obtain ⟨rewritten, written, declared, left, index, note, after, hspec, hout, hdeclared, -⟩ := emit_inPlace h
    have hs : p.sheet = sheet := hsheet
    rw [hs] at hspec hout
    refine ⟨rewritten, written, declared, left, index, note, after, hspec, hout, hdeclared,
      fun hnodes hrecords _ => hspec.mentioned hnodes hrecords, fun j node hj hnode => ?_⟩
    rcases hnode with himport | ⟨i, hi, hdeclares⟩
    · exact hspec.imports j node hj himport
    · obtain ⟨v, hv, hle⟩ := position_resolve hp hj hdeclares
      exact Nat.lt_of_le_of_lt hle (hspec.anchors i hi v hv)

/-- A theme of one color. -/
def painted : Table :=
  .ofList [{ ident := .ofName .debug "$paint", name := "$paint", raw := "red", resolved := "red", parsed := true }]

def painting : PassContext := ⟨{}, .scss, [painted], .merged [painted]⟩

/-- Two variables that follow it, one through the other; the first has a
declaration at run time already. -/
def links : Sheet where
  nodes := [.declaration "$link" "$paint" { between := ": " } true,
    .declaration "$hover" "$link" { before := "\n", between := ": " } true,
    .rule ":root" [.declaration "--link-7f5a413f" "old" { before := " ", between := ": ", after := " " } false]
      { before := "\n", between := " " },
    .rule "a" [.declaration "color" "$hover" { before := " ", between := ": ", after := " " } false]
      { before := "\n", between := " " }]

theorem emit_declares_links :
    ∃ p out, (scan painting links .none).resolve painting = .ok p ∧ p.emit painting .inPlace = .ok out ∧
      out.sheet.print = "$link: $paint;\n$hover: $link;\n:root \x7b\n  --hover-2538b3d3: var(--link-7f5a413f, red);\n\x7d" ++
        "\n:root \x7b --link-7f5a413f: var(--paint-c079918d, red) \x7d\na \x7b color: var(--hover-2538b3d3, red) \x7d" ∧
      ∀ i, (p.emitter painting).InUse links.nodes i ↔ i ∈ [Ident.ofName .debug "$hover", .ofName .debug "$link"] := by
  have hrun : ((scan painting links .none).resolve painting >>= fun p => (p.emit painting .inPlace).map fun out =>
      (out.sheet.print, out.log.declarations.map Prod.fst)) = .ok
        ("$link: $paint;\n$hover: $link;\n:root \x7b\n  --hover-2538b3d3: var(--link-7f5a413f, red);\n\x7d" ++
          "\n:root \x7b --link-7f5a413f: var(--paint-c079918d, red) \x7d\na \x7b color: var(--hover-2538b3d3, red) \x7d",
          [.ofName .debug "$hover", .ofName .debug "$link"]) := by
    decide +kernel
  obtain ⟨p, hp, hemit⟩ := bind_ok.1 hrun
  obtain ⟨out, hout, heq⟩ := map_ok.1 hemit
  obtain ⟨hprint, hidents⟩ := Prod.mk.inj heq
  obtain ⟨-, rewritten, written, declared, left, index, note, after, hspec, -, hdeclared, -⟩ :=
    emit_declares painting links .none hp hout
  exact ⟨p, out, hp, hout, hprint, fun i => by rw [← hspec.inUse i, ← hidents, hdeclared]⟩

end Pass

end ThemeVars
