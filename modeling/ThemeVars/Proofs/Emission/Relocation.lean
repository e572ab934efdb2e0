/-
Relocation in a pass. Resolution takes a variable from the last import that has
it and emission from the merged theme, and one memo serves both.
`pass_unaided`: both take the same variable, and what the memo answers is what
an empty one would answer.
-/
import ThemeVars.Emission
import ThemeVars.Proofs.Variable.Memo

namespace ThemeVars

variable {α : Type} {file : Option Path} {P : Variable → Prop}

/-! ## Resolution -/

instance : Carries Resolving Table where
  outcome x memo t :=
    match (x.run.run ⟨t, memo⟩ : Except Error _ × Progress) with
    | (.ok a, p) => .ok (a, p.memo, p.table)
    | (.error e, _) => .error e
  outcome_pure _ _ _ := rfl
  outcome_bind x f memo t := by
    rw [run_bind]
    rcases (x.run.run ⟨t, memo⟩ : Except Error _ × Progress) with ⟨_ | _, _⟩ <;> rfl

namespace Resolving

theorem scripted_lift (x : Except Error α) : Scripted file P (liftM x : Resolving α) := by
  cases x with
  | error e => exact ⟨.fail e, fun _ _ => rfl, trivial⟩
  | ok a => exact ⟨.done a, fun _ _ => rfl, trivial⟩

theorem outcome_get (f : Progress → Resolving α) (memo : Relocations) (t : Table) :
    Carries.outcome (get >>= f) memo t = Carries.outcome (f ⟨t, memo⟩) memo t := rfl

/-- Reading the state without the memo in it. -/
theorem scripted_get {f : Progress → Resolving α} (hf : ∀ t memo, f ⟨t, memo⟩ = f ⟨t, {}⟩)
    (h : ∀ t, Scripted file P (f ⟨t, {}⟩)) : Scripted file P (get >>= f) := by
  choose c hc hP using h
  refine ⟨.read c, fun memo t => ?_, hP⟩
  rw [outcome_get, hf]
  exact hc t memo t

theorem scripted_insert (v : Variable) :
    Scripted file P (modify fun p => { p with table := p.table.insert v } : Resolving Unit) :=
  ⟨.read fun t => .write (t.insert v) (.done ()), fun _ _ => rfl, fun _ => trivial⟩

end Resolving

namespace Surroundings

open Resolving

variable {s : Surroundings}

theorem scripted_external? (ident : Ident) : Scripted s.file s.Holds (s.external? ident) := by
  unfold external?
  rcases h : Table.findLast? s.externals ident with _ | v
  · exact scripted_pure _
  · refine ⟨.relocate v fun value => .done (.some (.ofVariable ident value v.dependencies)), fun memo t => ?_,
      holds_of_findLast? h, fun _ => trivial⟩
    rw [outcome_get, Script.run]
    rcases memo.relocate v s.file with e | ⟨x, memo'⟩
    · rfl
    · rfl

variable {settle : Ident → Resolving Bool} (h : ∀ next, Scripted s.file s.Holds (settle next))
include h

theorem scripted_find? (r : Reference) : Scripted s.file s.Holds (s.find? settle r) := by
  unfold find?
  split
  · exact scripted_pure _
  · refine scripted_get (fun _ _ => rfl) fun t => ?_
    split
    · refine (h _).bind fun b => ?_
      cases b with
      | false => exact scripted_pure _
      | true =>
        refine scripted_get (fun _ _ => rfl) fun u => ?_
        simp only
        split
        · exact scripted_pure _
        · exact scripted_pure _
    · exact scripted_external? _

theorem scripted_expand (value : Value) : Scripted s.file s.Holds (value.expand (s.find? settle)) := by
  induction value with
  | done => exact scripted_pure _
  | text x rest ih => exact ih.bind fun _ => scripted_pure _
  | interpolation inner rest ihi ihr => exact ihi.bind fun _ => ihr.bind fun _ => scripted_pure _
  | reference r rest ih => exact (scripted_find? h r).bind fun _ => ih.bind fun _ => scripted_pure _
  | guarded r fallback rest ihf ihr =>
    refine (scripted_find? h r).bind fun found => ?_
    cases found with
    | some e => exact ihr.bind fun _ => scripted_pure _
    | none => exact ihf.bind fun _ => ihr.bind fun _ => scripted_pure _

theorem scripted_expandText (text : String) : Scripted s.file s.Holds (s.expandText settle text) :=
  (scripted_lift _).bind fun value => scripted_expand h value

omit h

theorem scripted_resolve (waiting : List Ident) (ident : Ident) : Scripted s.file s.Holds (s.resolve waiting ident) := by
  induction waiting using Table.erase_induction generalizing ident with
  | step waiting ih =>
    rw [resolve]
    refine scripted_get (fun _ _ => rfl) fun t => ?_
    simp only
    split
    · exact scripted_pure _
    · split
      · exact scripted_pure _
      · refine (scripted_expandText (fun next => ?_) _).bind fun e => (scripted_lift _).bind fun urls => scripted_insert _
        split
        · rename_i hnext
          exact (ih next hnext next).bind fun _ => scripted_pure _
        · exact scripted_pure _

theorem scripted_resolveAll (locals order : List Ident) : Scripted s.file s.Holds (s.resolveAll locals order) := by
  induction order with
  | nil => exact scripted_pure _
  | cons ident order ih => exact (scripted_resolve _ ident).bind fun _ => ih

theorem scripted_resolveTable (s : Surroundings) : Scripted s.file s.Holds s.resolveTable :=
  scripted_get (fun _ _ => rfl) fun t => scripted_resolveAll t.idents t.idents

end Surroundings

/-! ## Emission -/

instance : Carries Emitting (Log × List Ident) where
  outcome x memo t :=
    match x.run ⟨memo, t.1, t.2⟩ with
    | .ok (a, s) => .ok (a, s.memo, s.log, s.used)
    | .error e => .error e
  outcome_pure _ _ _ := rfl
  outcome_bind x f memo t := by
    rw [StateT.run_bind]
    rcases x.run ⟨memo, t.1, t.2⟩ with _ | _
    · rfl
    · rfl

namespace Emitting

theorem scripted_lift (x : Except Error α) : Scripted file P (liftM x : Emitting α) := by
  cases x with
  | error e => exact ⟨.fail e, fun _ _ => rfl, trivial⟩
  | ok a => exact ⟨.done a, fun _ _ => rfl, trivial⟩

theorem outcome_get (f : Emission → Emitting α) (memo : Relocations) (t : Log × List Ident) :
    Carries.outcome (get >>= f) memo t = Carries.outcome (f ⟨memo, t.1, t.2⟩) memo t := rfl

/-- A run that succeeds, as an outcome. -/
theorem outcome_ok {x : Emitting α} {s s' : Emission} {a : α} (h : x.run s = .ok (a, s')) :
    Carries.outcome x s.memo (s.log, s.used) = .ok (a, s'.memo, s'.log, s'.used) := by
  simp only [Carries.outcome, h]

/-- Reading the state without the memo in it. -/
theorem scripted_get {f : Emission → Emitting α} (hf : ∀ memo log used, f ⟨memo, log, used⟩ = f ⟨{}, log, used⟩)
    (h : ∀ log used, Scripted file P (f ⟨{}, log, used⟩)) : Scripted file P (get >>= f) := by
  choose c hc hP using h
  refine ⟨.read fun t => c t.1 t.2, fun memo t => ?_, fun t => hP t.1 t.2⟩
  rw [outcome_get, hf]
  exact hc t.1 t.2 memo t

/-- Changing the state and not the memo in it. -/
theorem scripted_modify {f : Emission → Emission} (log : Emission → Log) (used : Emission → List Ident)
    (hf : ∀ memo l u, f ⟨memo, l, u⟩ = ⟨memo, log ⟨{}, l, u⟩, used ⟨{}, l, u⟩⟩) :
    Scripted file P (modify f : Emitting Unit) := by
  refine ⟨.read fun t => .write (log ⟨{}, t.1, t.2⟩, used ⟨{}, t.1, t.2⟩) (.done ()), fun memo t => ?_, fun _ => trivial⟩
  change (match (Except.ok ((), f ⟨memo, t.1, t.2⟩) : Except Error _) with
    | .ok (a, s) => Except.ok (a, s.memo, s.log, s.used)
    | .error e => .error e) = _
  rw [hf]
  rfl

end Emitting

namespace Emitter

open Emitting

variable {e : Emitter}

theorem scripted_tell (v : Variable) (kind : MessageKind) (value : String) :
    Scripted e.file P (e.tell v kind value) :=
  scripted_modify (fun s => s.log.push (.ofVariable v kind e.engine value)) (·.used) fun _ _ _ => rfl

theorem scripted_use (ident : Ident) :
    Scripted file P
      (modify fun s => if s.used.contains ident then s else { s with used := s.used ++ [ident] } : Emitting Unit) := by
  refine scripted_modify (·.log) (fun s => if s.used.contains ident then s.used else s.used ++ [ident])
    fun memo log used => ?_
  split
  · rfl
  · rfl

theorem scripted_relocated {v : Variable} (hv : P v) : Scripted e.file P (e.relocated v) := by
  refine ⟨.relocate v .done, fun memo t => ?_, hv, fun _ => trivial⟩
  unfold relocated
  rw [outcome_get, Script.run]
  rcases memo.relocate v e.file with e | ⟨x, memo'⟩
  · rfl
  · rfl

theorem scripted_when {c : Prop} [Decidable c] {x : Emitting Unit} {k : Unit → Emitting α} (hx : Scripted file P x)
    (hk : ∀ a, Scripted file P (k a)) : Scripted file P (if c then x >>= k else k ()) := by
  split
  · exact hx.bind hk
  · exact hk ()

theorem scripted_tellContext (e : Emitter) (idents : List Ident) : Scripted e.file P (e.tellContext idents) := by
  induction idents with
  | nil => exact scripted_pure _
  | cons ident rest ih =>
    rw [tellContext]
    rcases e.table.get? ident with _ | v
    · exact ih
    · exact (scripted_tell _ _ _).bind fun _ => ih

/-- What the theme holds has the property. -/
def Serves (e : Emitter) (P : Variable → Prop) : Prop := ∀ i v, e.context.theme.get? i = .some v → P v

variable (he : e.Serves P)
include he

theorem scripted_themeValue (ident : Ident) : Scripted e.file P (e.themeValue ident) := by
  unfold themeValue
  rcases h : e.context.theme.get? ident with _ | v
  · exact scripted_pure _
  · refine (scripted_relocated (he ident v h)).bind fun value => (scripted_tell _ _ _).bind fun _ => ?_
    exact scripted_when (scripted_tell _ _ _) fun _ => scripted_when (scripted_tell _ _ _) fun _ => scripted_pure _

theorem scripted_themeDeclarations (idents : List Ident) : Scripted e.file P (e.themeDeclarations idents) := by
  induction idents with
  | nil => exact scripted_pure _
  | cons ident rest ih =>
    refine (scripted_themeValue he ident).bind fun found => ?_
    cases found with
    | none => exact ih
    | some _ => exact ih.bind fun _ => scripted_pure _

theorem scripted_standalone (sheet : Sheet) : Scripted e.file P (e.standalone sheet) := by
  unfold standalone
  split
  · exact scripted_pure _
  · exact (scripted_themeDeclarations he _).bind fun _ => scripted_pure _

theorem scripted_replacement? (colorProperty : Bool) (r : Reference) :
    Scripted e.file P (e.replacement? colorProperty r) := by
  unfold replacement?
  split
  · exact scripted_pure _
  · simp only
    split
    · refine (scripted_themeValue he _).bind fun found => ?_
      cases found with
      | none => exact scripted_pure _
      | some _ => exact scripted_pure _
    · split
      · split
        · exact scripted_pure _
        · exact (scripted_use _).bind fun _ => scripted_pure _
      · exact scripted_pure _

theorem scripted_rewrite (colorProperty inside : Bool) (value : Value) :
    Scripted e.file P (value.rewrite (fun r _ => e.replacement? colorProperty r) inside) := by
  induction value generalizing inside with
  | done => exact scripted_pure _
  | text x rest ih => exact (ih inside).bind fun _ => scripted_pure _
  | interpolation inner rest ihi ihr => exact (ihi true).bind fun _ => (ihr inside).bind fun _ => scripted_pure _
  | reference r rest ih => exact (scripted_replacement? he _ r).bind fun _ => (ih inside).bind fun _ => scripted_pure _
  | guarded r fallback rest ihf ihr =>
    refine (scripted_replacement? he _ r).bind fun new => ?_
    cases new with
    | some _ => exact (ihr inside).bind fun _ => scripted_pure _
    | none => exact (ihf inside).bind fun _ => (ihr inside).bind fun _ => scripted_pure _

theorem scripted_rewriteValue (property value : String) : Scripted e.file P (e.rewriteValue property value) := by
  unfold rewriteValue
  simp only
  split
  · exact scripted_pure _
  · refine (scripted_lift _).bind fun segments => ?_
    split
    · exact scripted_pure _
    · exact (scripted_rewrite he _ _ segments).bind fun _ => scripted_pure _

omit he

mutual

theorem scripted_rewriteNode (he : e.Serves P) : (node : Node) → Scripted e.file P (e.rewriteNode node)
  | .rule _ children _ => by
    rw [rewriteNode]
    exact (scripted_rewriteNodes he children).bind fun _ => scripted_pure _
  | .declaration property value _ _ => by
    rw [rewriteNode]
    exact (scripted_rewriteValue he property value).bind fun _ => scripted_pure _
  | .group _ _ children _ _ => by
    rw [rewriteNode]
    exact (scripted_rewriteNodes he children).bind fun _ => scripted_pure _
  | .statement .. => by
    rw [rewriteNode]
    exact scripted_pure _
  | .comment .. => by
    rw [rewriteNode]
    exact scripted_pure _

theorem scripted_rewriteNodes (he : e.Serves P) : (nodes : List Node) → Scripted e.file P (e.rewriteNodes nodes)
  | [] => by
    rw [rewriteNodes]
    exact scripted_pure _
  | node :: rest => by
    rw [rewriteNodes]
    exact (scripted_rewriteNode he node).bind fun _ => (scripted_rewriteNodes he rest).bind fun _ => scripted_pure _

end

include he

theorem scripted_runtimeDeclarations (waiting : List Ident) (done : Nat) :
    Scripted e.file P (e.runtimeDeclarations waiting done) := by
  induction waiting using Table.erase_induction generalizing done with
  | step waiting ih =>
    rw [runtimeDeclarations]
    refine scripted_get (fun _ _ _ => rfl) fun log used => ?_
    simp only
    split
    · exact scripted_pure _
    · split
      · rename_i ident _ hident
        have hrest := ih ident hident (done + 1)
        split
        · exact hrest
        · exact (scripted_lift _).bind fun segments => (scripted_rewrite he _ _ segments).bind fun _ =>
            (scripted_tell _ _ _).bind fun _ => hrest.bind fun _ => scripted_pure _
      · exact scripted_pure _

theorem scripted_declareReferences (sheet : Sheet) : Scripted e.file P (e.declareReferences sheet) := by
  refine (scripted_runtimeDeclarations he _ _).bind fun declarations => ?_
  simp only
  split
  · exact scripted_pure _
  · exact scripted_pure _

theorem scripted_themeLines (idents : List Ident) : Scripted e.file P (e.themeLines idents) := by
  induction idents with
  | nil => exact scripted_pure _
  | cons ident rest ih =>
    rw [themeLines]
    rcases h : e.context.theme.get? ident with _ | v
    · exact ih
    · exact (scripted_relocated (he ident v h)).bind fun _ => ih.bind fun _ => scripted_pure _

theorem scripted_documentTheme (sheet : Sheet) : Scripted e.file P (e.documentTheme sheet) := by
  unfold documentTheme
  split
  · exact scripted_pure _
  · exact (scripted_themeLines he _).bind fun _ => scripted_pure _

theorem scripted_inPlace (sheet : Sheet) : Scripted e.file P (e.inPlace sheet) := by
  refine (scripted_rewriteNodes he _).bind fun nodes => (scripted_declareReferences he _).bind fun sheet => ?_
  split
  · exact scripted_documentTheme he _
  · exact scripted_pure _

end Emitter

/-! ## A pass -/

namespace Pass

variable {context : PassContext}

/-- What the file is resolved against. -/
def surroundings (context : PassContext) (file : Option Path) : Surroundings :=
  ⟨context.dialect, context.settings.identMode, context.imports, file⟩

/-- What writes the file out. -/
def emitter (context : PassContext) (p : Pass) : Emitter := ⟨context, p.table, p.file, p.classify context⟩

/-- The part of `emit` that relocates variables. -/
def emission (context : PassContext) (mode : EmitMode) (p : Pass) : Emitting Sheet := do
  (p.emitter context).tellContext (p.classify context).context
  match mode with
  | .standalone => (p.emitter context).standalone p.sheet
  | .inPlace => (p.emitter context).inPlace p.sheet

theorem emit_eq (context : PassContext) (mode : EmitMode) (p : Pass) :
    p.emit context mode = (p.emission context mode).run { memo := p.memo } >>= fun (sheet, s) =>
      let sheet :=
        if context.dialect == .scss then
          { sheet with nodes := sheet.nodes.map (interpolateRootValues context.settings.rootSelector) }
        else sheet
      return ⟨sheet, p.table, p.classify context, s.log⟩ := rfl

theorem resolve_eq (context : PassContext) (p : Pass) :
    p.resolve context =
      (Carries.outcome (surroundings context p.file).resolveTable p.memo p.table).map fun (_, memo, table) =>
        { p with table, memo } := by
  have hrun : (⟨context.dialect, context.settings.identMode, context.imports, p.file⟩ : Surroundings).resolveTable.run
      ⟨p.table, p.memo⟩ =
      ((surroundings context p.file).resolveTable.run.run ⟨p.table, p.memo⟩ : Except Error Unit × Progress) := rfl
  simp only [resolve, Carries.outcome, hrun]
  rcases ((surroundings context p.file).resolveTable.run.run ⟨p.table, p.memo⟩ : Except Error Unit × Progress) with
    ⟨_ | _, _⟩
  · rfl
  · rfl

theorem scripted_emission (htheme : context.theme = .merged context.imports) (mode : EmitMode) (p : Pass) :
    Scripted p.file (surroundings context p.file).Holds (p.emission context mode) := by
  have he : (p.emitter context).Serves (surroundings context p.file).Holds := by
    intro i v hv
    change context.theme.get? i = .some v at hv
    rw [htheme, Table.get?_merged] at hv
    exact Surroundings.holds_of_findLast? (s := surroundings context p.file) hv
  refine (Emitter.scripted_tellContext _ _).bind fun _ => ?_
  cases mode with
  | standalone => exact Emitter.scripted_standalone he _
  | inPlace => exact Emitter.scripted_inPlace he _

/-- Resolution leaves a memo that holds what relocation gives. -/
theorem faithful_resolve {p q : Pass} (hm : (surroundings context p.file).Faithful p.memo) (hq : p.resolve context = .ok q) :
    (surroundings context p.file).Faithful q.memo := by
  rw [resolve_eq, map_ok] at hq
  obtain ⟨⟨_, memo, table⟩, hq, rfl⟩ := hq
  exact ((surroundings context p.file).scripted_resolveTable.unaided hm p.table).2 _ _ _ hq

/-- The memo and the merged theme are of no consequence in a pass: the theme
holds of each ident what the last import that has it holds, and whatever is
relocated, first for resolution and then, with the memo that this has left, for
emission, comes out as from an empty memo. -/
theorem pass_unaided (context : PassContext) (htheme : context.theme = .merged context.imports) (mode : EmitMode)
    (sheet : Sheet) (file : Option Path) :
    (∀ ident, Table.findLast? context.imports ident = context.theme.get? ident) ∧
      Unaided file (surroundings context file).resolveTable {} (scan context sheet file).table ∧
      ∀ p, (scan context sheet file).resolve context = .ok p →
        Unaided file (p.emission context mode) p.memo ({}, []) := by
  have hfaithful := (surroundings context file).faithful_empty
  refine ⟨fun ident => ?_, (Surroundings.scripted_resolveTable _).unaided hfaithful _ |>.1, fun p hp => ?_⟩
  · rw [htheme, Table.get?_merged]
  · have hfile : p.file = file := by
      rw [resolve_eq, map_ok] at hp
      obtain ⟨_, -, rfl⟩ := hp
      rfl
    have hmemo := faithful_resolve hfaithful hp
    rw [← hfile]
    exact ((scripted_emission htheme mode p).unaided (hfile ▸ hmemo) _).1

/-- Two theme files that declare one variable, each with a picture next to it. -/
def icons : List Table :=
  ["a", "b"].map fun x =>
    .ofList [{ ident := .ofName .debug "$icon", name := "$icon", raw := "url(" ++ x ++ ".png)",
               resolved := "url(" ++ x ++ ".png)", parsed := true,
               urls := .some ⟨⟨"/" ++ x ++ "/theme.scss"⟩, [x ++ ".png"]⟩ }]

def iconic : PassContext := ⟨{}, .scss, icons, .merged icons⟩

/-- A file that uses it in a variable and in a property. -/
def badge : Pass :=
  scan iconic
    { nodes := [.declaration "$mark" "$icon left" { between := ": " } true,
        .rule ".badge" [.declaration "background" "$icon" { between := ": " } true] {}] }
    (.some ⟨"/c/badge.scss"⟩)

/-- Resolution relocates the variable, so that emission finds it in the memo. -/
theorem pass_unaided_icons :
    (∀ ident, Table.findLast? icons ident = iconic.theme.get? ident) ∧
      Unaided badge.file (surroundings iconic badge.file).resolveTable {} badge.table ∧
      ∃ p out, badge.resolve iconic = .ok p ∧ p.emit iconic .inPlace = .ok out ∧
        p.table.records.map (·.resolved) = ["url(../b/b.png) left"] ∧ p.memo.size = 1 ∧
        out.sheet.print = "$mark: $icon left;.badge\x7bbackground: var(--icon-ae299c5e, url(../b/b.png));\x7d" ∧
        Unaided badge.file (p.emission iconic .inPlace) p.memo ({}, []) := by
  obtain ⟨hfind, hresolve, hemission⟩ := pass_unaided iconic rfl .inPlace badge.sheet badge.file
  have hrun : (badge.resolve iconic >>= fun p => (p.emit iconic .inPlace).map fun out =>
      (p.table.records.map (·.resolved), p.memo.size, out.sheet.print)) =
      .ok (["url(../b/b.png) left"], 1, "$mark: $icon left;.badge\x7bbackground: var(--icon-ae299c5e, url(../b/b.png));\x7d") := by
    decide +kernel
  obtain ⟨p, hp, hemit⟩ := bind_ok.1 hrun
  obtain ⟨out, hout, heq⟩ := map_ok.1 hemit
  obtain ⟨hresolved, heq⟩ := Prod.mk.inj heq
  obtain ⟨hsize, hprint⟩ := Prod.mk.inj heq
  exact ⟨hfind, hresolve, p, out, hp, hout, hresolved, hsize, hprint, hemission p hp⟩

end Pass

end ThemeVars
