/-
The space and the comments of a sheet in a pass. `Pass.run_bare`: they have no
say in what a file becomes. `run_standalone_import`: as emission does not look
at what stands around a rule that it adds, the rule can be read as a part of its
neighbor.
-/
import ThemeVars.Proofs.Emission.Relocation
import ThemeVars.Proofs.Sheet.Bare

namespace ThemeVars

/-! ## Emission -/

namespace Emitter

variable {e : Emitter}

mutual

theorem rewriteNode_bare : ∀ node : Node, e.rewriteNode node.bare = Node.bare <$> e.rewriteNode node
  | .rule selector children spacing => by
    simp only [Node.bare, rewriteNode, rewriteNodes_bare children, map_eq_pure_bind, bind_assoc, pure_bind]
  | .declaration property value spacing semicolon => by
    simp only [Node.bare, rewriteNode, map_eq_pure_bind, bind_assoc, pure_bind]
  | .statement _ _ _ _ _ _ => by simp only [Node.bare, rewriteNode, map_pure]
  | .group name params children spacing afterName => by
    simp only [Node.bare, rewriteNode, rewriteNodes_bare children, map_eq_pure_bind, bind_assoc, pure_bind]
  | .comment _ _ _ => by simp only [Node.bare, rewriteNode, map_pure]

theorem rewriteNodes_bare :
    ∀ nodes : List Node, e.rewriteNodes (Node.bareAll nodes) = Node.bareAll <$> e.rewriteNodes nodes
  | [] => by simp only [Node.bareAll, rewriteNodes, map_pure]
  | node :: rest => by
    simp only [Node.bareAll, rewriteNodes, rewriteNode_bare node, rewriteNodes_bare rest, map_eq_pure_bind, bind_assoc,
      pure_bind]

end

/-- What the step does, and what it makes of a sheet, are the same for a sheet
and its bare form, the space between the parts aside. -/
def IgnoresSpacing (f : Sheet → Emitting Sheet) : Prop := ∀ sheet, Sheet.bare <$> f sheet.bare = Sheet.bare <$> f sheet

theorem ignoresSpacing_pure : IgnoresSpacing pure := fun sheet => by rw [map_pure, map_pure, Sheet.bare_bare]

theorem IgnoresSpacing.bind {f g : Sheet → Emitting Sheet} (hf : IgnoresSpacing f) (hg : IgnoresSpacing g) :
    IgnoresSpacing fun sheet => f sheet >>= g := by
  intro sheet
  have hbare (x : Emitting Sheet) : Sheet.bare <$> (x >>= g) = (Sheet.bare <$> x) >>= fun t => Sheet.bare <$> g t := by
    rw [map_bind, bind_map_left]
    exact bind_congr fun t => (hg t).symm
  rw [hbare, hbare, hf]

theorem ignoresSpacing_standalone : IgnoresSpacing e.standalone := by
  intro sheet
  unfold standalone
  split
  · exact ignoresSpacing_pure sheet
  · simp only [map_bind, map_pure, insertionIndex_bare, Sheet.insertAt_bare]

theorem ignoresSpacing_declareReferences : IgnoresSpacing e.declareReferences := by
  intro sheet
  unfold declareReferences
  simp only [map_bind]
  refine bind_congr fun declarations => ?_
  have hnodes (nodes : List Node) :
      { sheet.bare with nodes := nodes.map Node.bare } = ({ sheet with nodes } : Sheet).bare := rfl
  have hover : overwrite sheet.bare.nodes declarations = _ := overwrite_bare sheet.nodes declarations
  simp only [hover, hnodes]
  split
  · simp only [map_pure, Sheet.bare_bare]
  · simp only [map_pure, insertionIndex_bare, Sheet.insertAt_bare]

theorem ignoresSpacing_documentTheme : IgnoresSpacing e.documentTheme := by
  intro sheet
  unfold documentTheme
  split
  · exact ignoresSpacing_pure sheet
  · simp [Sheet.bare, Function.comp_def]

theorem ignoresSpacing_inPlace : IgnoresSpacing e.inPlace := by
  have hrewrite : IgnoresSpacing fun sheet => do
      let nodes ← e.rewriteNodes sheet.nodes
      return { sheet with nodes } := by
    intro sheet
    have hnodes : e.rewriteNodes (sheet.nodes.map Node.bare) = (List.map Node.bare) <$> e.rewriteNodes sheet.nodes := by
      simpa only [Node.bareAll_eq, funext Node.bareAll_eq] using rewriteNodes_bare sheet.nodes
    simp [Sheet.bare, hnodes, Function.comp_def]
  have hdocument : IgnoresSpacing fun sheet =>
      if e.context.settings.documentTheme && !e.isThemeFile then e.documentTheme sheet else return sheet := by
    cases e.context.settings.documentTheme && !e.isThemeFile with
    | true => exact ignoresSpacing_documentTheme
    | false => exact ignoresSpacing_pure
  intro sheet
  have h := (hrewrite.bind (ignoresSpacing_declareReferences (e := e))).bind hdocument sheet
  unfold inPlace
  simpa only [bind_assoc, pure_bind] using h

end Emitter

/-! ## A pass -/

/-- The output with its sheet bare. -/
def Output.bare (out : Output) : Output := { out with sheet := out.sheet.bare }

namespace Pass

variable {context : PassContext}

theorem emission_bare (mode : EmitMode) (p : Pass) :
    Sheet.bare <$> { p with sheet := p.sheet.bare }.emission context mode = Sheet.bare <$> p.emission context mode := by
  unfold emission
  rw [map_bind, map_bind]
  refine bind_congr fun _ => ?_
  cases mode with
  | standalone => exact Emitter.ignoresSpacing_standalone p.sheet
  | inPlace => exact Emitter.ignoresSpacing_inPlace p.sheet

/-- The last step of `emit`. -/
def interpolated (context : PassContext) (sheet : Sheet) : Sheet :=
  if context.dialect == .scss then
    { sheet with nodes := sheet.nodes.map (interpolateRootValues context.settings.rootSelector) }
  else sheet

/-- What `emit` does: it tells of the context variables, and then writes the sheet
as the mode says. -/
theorem emit_ok {mode : EmitMode} {p : Pass} {out : Output} (h : p.emit context mode = .ok out) :
    ∃ after s t, ((p.emitter context).tellContext (p.classify context).context).run { memo := p.memo } = .ok ((), s) ∧
      (match mode with
        | .standalone => (p.emitter context).standalone p.sheet
        | .inPlace => (p.emitter context).inPlace p.sheet : Emitting Sheet).run s = .ok (after, t) ∧
      out = ⟨interpolated context after, p.table, p.classify context, t.log⟩ := by
  rw [emit_eq] at h
  obtain ⟨⟨after, t⟩, hemission, hret⟩ := bind_ok.1 h
  cases hret
  unfold emission at hemission
  rw [StateT.run_bind] at hemission
  obtain ⟨⟨_, s⟩, htell, hwrite⟩ := bind_ok.1 hemission
  exact ⟨after, s, t, htell, hwrite, rfl⟩

theorem interpolated_bare (sheet : Sheet) : (interpolated context sheet).bare = interpolated context sheet.bare := by
  unfold interpolated
  split
  · simp [Sheet.bare, interpolateRootValues_bare, Function.comp_def]
  · rfl

theorem emit_bare (mode : EmitMode) (p : Pass) :
    ({ p with sheet := p.sheet.bare }.emit context mode).map Output.bare = (p.emit context mode).map Output.bare := by
  have hemit (p : Pass) : (p.emit context mode).map Output.bare =
      ((Sheet.bare <$> p.emission context mode).run { memo := p.memo }).map fun out =>
        ⟨interpolated context out.1, p.table, p.classify context, out.2.log⟩ := by
    rw [emit_eq, StateT.run_map]
    rcases (p.emission context mode).run { memo := p.memo } with _ | ⟨sheet, s⟩
    · rfl
    · exact congrArg (fun t => Except.ok (⟨t, p.table, p.classify context, s.log⟩ : Output)) (interpolated_bare sheet)
  rw [hemit, hemit, emission_bare]
  rfl

/-- What a file becomes, the space and the comments of it aside, is settled by
its sheet without space and comments. -/
theorem run_bare (mode : EmitMode) (sheet : Sheet) (file : Option Path) :
    (run context mode sheet.bare file).map Output.bare = (run context mode sheet file).map Output.bare := by
  have hresolve (sheet : Sheet) : (scan context sheet file).resolve context =
      (Carries.outcome (surroundings context file).resolveTable {}
        (sheet.scan file context.dialect context.settings.identMode)).map
          fun out => ⟨sheet, file, out.2.2, out.2.1⟩ := resolve_eq context (scan context sheet file)
  unfold run
  rw [hresolve, hresolve, Sheet.scan_bare]
  cases Carries.outcome (surroundings context file).resolveTable {}
      (sheet.scan file context.dialect context.settings.identMode) with
  | error e => rfl
  | ok out => exact emit_bare mode ⟨sheet, file, out.2.2, out.2.1⟩

end Pass

/-! ## What is written next to other text -/

/-- A theme of one color. -/
def themed : Table :=
  .ofList [{ ident := .ofName .debug "--p", name := "--p", raw := "red", resolved := "red", parsed := true }]

/-- After an import without its semicolon, the rule that is added is read as a
part of the import. -/
theorem run_standalone_import :
    ((Sheet.parse .css .none "@import \"theme.css\"").bind fun sheet =>
      (Pass.run ⟨{}, .css, [themed], .merged [themed]⟩ .standalone sheet .none).bind fun out =>
        (Sheet.parse .css .none out.sheet.print).map fun again =>
          (out.sheet.nodes.length, again.nodes.length)) = .ok (2, 1) := by
  decide +kernel

end ThemeVars
