/-
Line comments in a file. `processText_comments`: what they say has no say in
what the file becomes, where they stand between its statements.
`processText_inner_comment`: one in the middle of a value is a part of the
value, with the references in it.
-/
import ThemeVars.Proofs.Emission.Spacing
import ThemeVars.Proofs.Sheet.Comments
import ThemeVars.Session

namespace ThemeVars

namespace Session

variable {m : Type → Type} [Monad m] [LawfulMonad m] {s : Session m}

theorem process_bare (sheet : Sheet) (file : Path) (mode : EmitMode) :
    Output.bare <$> s.process sheet.bare file mode = Output.bare <$> s.process sheet file mode := by
  have hthemes : s.themes sheet.bare file = s.themes sheet file := by rw [themes, themes, Import.specifiers_bare]
  have hmap (x : Except Error Output) :
      Output.bare <$> (ExceptT.mk (pure x) : ExceptT Error m Output) = ExceptT.mk (pure (x.map Output.bare)) := by
    refine ExceptT.ext ?_
    rw [ExceptT.run_map, ExceptT.run_mk, map_pure]
    rfl
  simp only [process, hthemes, map_bind, hmap, Pass.run_bare]

theorem run_processText (text : String) (file : Path) (mode : EmitMode) :
    (s.processText text file mode).run =
      match Sheet.parse (s.settings.dialectOf file) (.some file) text with
      | .ok sheet => (s.process sheet file mode).run
      | .error e => pure (.error e) := by
  unfold processText
  simp only [ExceptT.run_bind, ExceptT.run_mk, pure_bind]
  cases Sheet.parse (s.settings.dialectOf file) (.some file) text <;> rfl

/-- Where a sheet imports nothing there is no theme. -/
theorem processText_alone {text : String} {file : Path}
    (h : (Sheet.parse (s.settings.dialectOf file) (.some file) text).map Import.specifiers = .ok []) (mode : EmitMode) :
    (s.processText text file mode).run =
      pure ((Sheet.parse (s.settings.dialectOf file) (.some file) text).bind fun sheet =>
        Pass.run (s.context (s.settings.dialectOf file) {}) mode sheet (.some file)) := by
  obtain ⟨sheet, hsheet, hnone⟩ := map_ok.1 h
  rw [run_processText, hsheet]
  simp only [process, themes, hnone, gather, pure_bind]
  rfl

/-- What the line comments of a file say has no say in whether it can be
processed and in what it becomes, its space and comments aside, where they
stand between its statements. -/
theorem processText_comments {a b : String} {file : Path} (h : Sheet.CommentsAside (s.settings.dialectOf file) a b)
    (ha : Sheet.apart .between (Sheet.pieces (s.settings.dialectOf file) a) = true) (mode : EmitMode) :
    (fun out => out.toOption.map Output.bare) <$> (s.processText a file mode).run =
      (fun out => out.toOption.map Output.bare) <$> (s.processText b file mode).run := by
  have hprocess (sheet : Sheet) : (fun out => out.toOption.map Output.bare) <$> (s.process sheet file mode).run =
      (fun out => out.toOption) <$> (Output.bare <$> s.process sheet file mode).run := by
    rw [ExceptT.run_map, Functor.map_map]
    refine congrArg (· <$> (s.process sheet file mode).run) (funext fun out => ?_)
    cases out <;> rfl
  have hparse := Sheet.parse_commentsAside (.some file) h
  rw [run_processText, run_processText]
  generalize Sheet.parse (s.settings.dialectOf file) (.some file) a = x at hparse
  generalize Sheet.parse (s.settings.dialectOf file) (.some file) b = y at hparse
  cases hparse with
  | error => simp only [map_pure, Except.toOption]
  | @ok x y hbare =>
    simp only [hprocess]
    rw [← process_bare x, ← process_bare y, hbare ha]

end Session

/-- Where nothing is imported from. -/
def lone : Session Id := .new {} (Shelf.sources {} {})

/-- A text with comments before, after and at the end of its statements. -/
def noted (note : String) : String := "// " ++ note ++ "\n$b: red; // " ++ note ++ "\n$a: $b // " ++ note

/-- A comment may hold a name or a quote. -/
theorem processText_comments_noted :
    Sheet.CommentsAside (lone.settings.dialectOf ⟨"/a.scss"⟩) (noted "don't") (noted "use $c") ∧
      Sheet.apart .between (Sheet.pieces (lone.settings.dialectOf ⟨"/a.scss"⟩) (noted "don't")) = true ∧
      (lone.processText (noted "don't") ⟨"/a.scss"⟩ .inPlace).run.toOption.map Output.bare =
        (lone.processText (noted "use $c") ⟨"/a.scss"⟩ .inPlace).run.toOption.map Output.bare := by
  have h : Sheet.CommentsAside (lone.settings.dialectOf ⟨"/a.scss"⟩) (noted "don't") (noted "use $c") := by decide +kernel
  have ha : Sheet.apart .between (Sheet.pieces (lone.settings.dialectOf ⟨"/a.scss"⟩) (noted "don't")) = true := by
    decide +kernel
  exact ⟨h, ha, Session.processText_comments h ha .inPlace⟩

/-- One of two texts that differ only inside a line comment. -/
def remarked (name : String) : String := "$b: red;\n$a: 1px // " ++ name ++ "\n  2px;"

/-- A name in a comment is a reference if the value goes on after it. -/
theorem processText_inner_comment :
    (Masking.mask .scss (remarked "$b").toList).map (fun cell => (cell.shown, cell.mark)) =
        (Masking.mask .scss (remarked "$c").toList).map (fun cell => (cell.shown, cell.mark)) ∧
      (lone.processText (remarked "$b") ⟨"/a.scss"⟩ .inPlace).run.toOption.map
        (fun out => out.table.records.map fun v => (v.name, v.dependencies.length)) = .some [("$b", 0), ("$a", 1)] ∧
      (lone.processText (remarked "$c") ⟨"/a.scss"⟩ .inPlace).run.toOption.map
        (fun out => out.table.records.map fun v => (v.name, v.dependencies.length)) = .some [("$b", 0), ("$a", 0)] := by
  refine ⟨by decide +kernel, ?_, ?_⟩
  · rw [Session.processText_alone (by decide +kernel)]
    decide +kernel
  · rw [Session.processText_alone (by decide +kernel)]
    decide +kernel

end ThemeVars
