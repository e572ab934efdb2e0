/-
The rule that declares the theme. `emit_standalone`: it declares the theme's
variables that are asked for, each once and in the order of the theme, with the
values that are told of; it stands after every import and after every
declaration that these variables depend on; and without it the file is as it
was.
-/
import ThemeVars.Proofs.Emission.Placement
import ThemeVars.Proofs.Emission.Relocation
import ThemeVars.Proofs.Emission.Spacing
import ThemeVars.Proofs.Emission.Uses
import ThemeVars.Proofs.Variable.Classification

namespace ThemeVars

namespace Emitter

variable {e : Emitter} {α β : Type}

/-! ## What is told -/

/-- However the computation comes out, it relocates nothing, tells of no theme
variable, and has a result such as `post` says. -/
def Quiet (x : Emitting α) (post : α → Prop) : Prop :=
  ∀ s a t, x.run s = .ok (a, t) → post a ∧ t.memo = s.memo ∧ t.log.told .themeVariable = s.log.told .themeVariable

theorem quiet_pure {a : α} {post : α → Prop} (h : post a) : Quiet (pure a) post := by
  intro s b t hrun
  cases hrun
  exact ⟨h, rfl, rfl⟩

theorem quiet_tell {kind : MessageKind} (h : kind ≠ .themeVariable) (v : Variable) (value : String) :
    Quiet (e.tell v kind value) fun _ => True := by
  intro s a t hrun
  cases hrun
  exact ⟨trivial, rfl, Log.told_push_other h _⟩

theorem Quiet.bind {x : Emitting α} {f : α → Emitting β} {p : α → Prop} {q : β → Prop} (h : Quiet x p)
    (hf : ∀ a, Quiet (f a) q) : Quiet (x >>= f) q := by
  intro s b t hrun
  rw [StateT.run_bind] at hrun
  obtain ⟨⟨a, u⟩, hx, hfa⟩ := bind_ok.1 hrun
  obtain ⟨-, hmemo, htold⟩ := h s a u hx
  obtain ⟨hb, hmemo', htold'⟩ := hf a u b t hfa
  exact ⟨hb, hmemo'.trans hmemo, htold'.trans htold⟩

theorem quiet_when {c : Prop} [Decidable c] {x : Emitting Unit} {k : Unit → Emitting α} {p : α → Prop}
    (hx : Quiet x fun _ => True) (hk : ∀ a, Quiet (k a) p) : Quiet (if c then x >>= k else k ()) p := by
  split
  · exact hx.bind hk
  · exact hk ()

theorem quiet_tellContext (idents : List Ident) : Quiet (e.tellContext idents) fun _ => True := by
  induction idents with
  | nil => exact quiet_pure trivial
  | cons ident rest ih =>
    rw [tellContext]
    rcases e.table.get? ident with _ | v
    · exact ih
    · exact (quiet_tell (by decide) v _).bind fun _ => ih

/-! ## The declarations -/

/-- What the file is resolved against. -/
def surroundings (e : Emitter) : Surroundings := Pass.surroundings e.context e.file

/-- The declaration is of a variable of the theme, with its value as the file has
to write it. -/
def Imported (e : Emitter) (d : Ident × String) : Prop :=
  ∃ v, e.context.theme.get? d.1 = .some v ∧ e.surroundings.imported v = .ok d.2

variable {s t : Emission} {ident : Ident} {v : Variable}

theorem relocated_run (hm : e.surroundings.Faithful s.memo) (hv : Table.findLast? e.context.imports ident = .some v)
    {value : String} (h : (e.relocated v).run s = .ok (value, t)) :
    e.surroundings.imported v = .ok value ∧ e.surroundings.Faithful t.memo ∧ t.log = s.log := by
  unfold relocated at h
  rw [StateT.run_bind] at h
  obtain ⟨⟨_, _⟩, hget, h⟩ := bind_ok.1 h
  cases hget
  rw [StateT.run_bind] at h
  obtain ⟨⟨⟨x, memo⟩, u⟩, hlift, hset⟩ := bind_ok.1 h
  obtain ⟨hrelocate, -⟩ := run_lift_ok.1 hlift
  cases hset
  obtain ⟨himported, hfaithful⟩ := (Surroundings.relocate_faithful hm hv).1 _ _ hrelocate
  exact ⟨himported, hfaithful, rfl⟩

/-- A variable of the theme that has not been told of is told of last, with the
value that the file has to write. -/
theorem themeValue_run (hm : e.surroundings.Faithful s.memo) (htheme : e.context.theme.get? ident = .some v)
    (hv : Table.findLast? e.context.imports ident = .some v) (hnew : ∀ d ∈ s.log.told .themeVariable, d.1 ≠ ident)
    {found : Option (Variable × String)} (h : (e.themeValue ident).run s = .ok (found, t)) :
    ∃ value, found = .some (v, value) ∧ e.surroundings.imported v = .ok value ∧ e.surroundings.Faithful t.memo ∧
      t.log.told .themeVariable = s.log.told .themeVariable ++ [(ident, value)] := by
  unfold themeValue at h
  simp only [htheme] at h
  rw [StateT.run_bind] at h
  obtain ⟨⟨value, u⟩, hrelocated, h⟩ := bind_ok.1 h
  obtain ⟨himported, hfaithful, hlog⟩ := relocated_run hm hv hrelocated
  rw [StateT.run_bind] at h
  obtain ⟨⟨_, w⟩, htell, h⟩ := bind_ok.1 h
  cases htell
  have hident : v.ident = ident := Table.ident_of_get? htheme
  have hquiet (x : Option (Variable × String)) :
      Quiet (do
        if v.rootScoped then e.tell v .rootScopedThemeVariable value
        if v.urls.isSome then e.tell v .urlDependencyVariable value
        return x) (· = x) :=
    quiet_when (quiet_tell (by decide) v value) fun _ => quiet_when (quiet_tell (by decide) v value) fun _ => quiet_pure rfl
  obtain ⟨hfound, hmemo, htold⟩ := hquiet _ _ _ _ h
  refine ⟨value, hfound, himported, hmemo ▸ hfaithful, htold.trans ?_⟩
  change (u.log.push (.ofVariable v .themeVariable e.engine value)).told .themeVariable = _
  subst hident
  rw [hlog]
  exact Log.told_push_new hnew

/-- What the declarations are of the theme's variables `idents`. -/
structure Declared (e : Emitter) (idents : List Ident) (nodes : List Node) (anchors : List Ident)
    (declared : List (Ident × String)) : Prop where
  order : declared.map Prod.fst = idents
  nodes : nodes = declared.map fun d => Node.newDeclaration d.1.text d.2
  values : ∀ d ∈ declared, e.Imported d
  /-- What a variable depends on is what the rule has to follow. -/
  anchors : ∀ i ∈ idents, ∀ v, e.context.theme.get? i = .some v → v.dependencies ⊆ anchors

/-- The theme holds what the imports do. -/
def Merges (e : Emitter) : Prop := ∀ i, e.context.theme.get? i = Table.findLast? e.context.imports i

/-- The variables of the theme are declared one after the other: an induction on
their idents, in which each is new to the messages. -/
theorem themeDeclarations_run (he : e.Merges) {idents : List Ident} (hn : idents.Nodup)
    (htheme : ∀ i ∈ idents, e.context.theme.contains i = true) (hm : e.surroundings.Faithful s.memo)
    (hnew : ∀ d ∈ s.log.told .themeVariable, d.1 ∉ idents) {nodes : List Node} {anchors : List Ident}
    (h : (e.themeDeclarations idents).run s = .ok ((nodes, anchors), t)) :
    ∃ declared, e.Declared idents nodes anchors declared ∧
      t.log.told .themeVariable = s.log.told .themeVariable ++ declared := by
  induction idents generalizing s nodes anchors with
  | nil =>
    cases h
    exact ⟨[], ⟨rfl, rfl, fun _ hd => (nomatch hd), fun _ hi => (nomatch hi)⟩, (List.append_nil _).symm⟩
  | cons ident rest ih =>
    obtain ⟨hident, hrest⟩ := List.nodup_cons.1 hn
    obtain ⟨htheme, hothers⟩ := List.forall_mem_cons.1 htheme
    obtain ⟨v, hv⟩ := Table.contains_iff.1 htheme
    rw [themeDeclarations, StateT.run_bind] at h
    obtain ⟨⟨found, u⟩, hvalue, h⟩ := bind_ok.1 h
    obtain ⟨value, rfl, himported, hfaithful, htold⟩ :=
      themeValue_run hm hv (he ident ▸ hv) (fun d hd hi => hnew d hd (hi ▸ List.mem_cons_self)) hvalue
    rw [StateT.run_bind] at h
    obtain ⟨⟨⟨nodes', anchors'⟩, w⟩, hdeclarations, h⟩ := bind_ok.1 h
    have hnew' : ∀ d ∈ u.log.told .themeVariable, d.1 ∉ rest := by
      intro d hd
      rw [htold, List.mem_append, List.mem_singleton] at hd
      rcases hd with hd | rfl
      · exact fun hmem => hnew d hd (List.mem_cons_of_mem _ hmem)
      · exact hident
    cases h
    obtain ⟨declared, hdeclared, htold'⟩ := ih hrest hothers hfaithful hnew' hdeclarations
    refine ⟨(ident, value) :: declared, ⟨?_, ?_, ?_, ?_⟩, ?_⟩
    · rw [List.map_cons, hdeclared.order]
    · rw [List.map_cons, hdeclared.nodes]
    · exact List.forall_mem_cons.2 ⟨⟨v, hv, himported⟩, hdeclared.values⟩
    · refine List.forall_mem_cons.2 ⟨fun w hw d hd => ?_, fun i hi w hw d hd => ?_⟩
      · cases hv.symm.trans hw
        exact List.mem_cons_of_mem _ (List.mem_append_left _ hd)
      · exact List.mem_cons_of_mem _ (List.mem_append_right _ (hdeclared.anchors i hi w hw hd))
    · rw [htold', htold, List.append_assoc, List.singleton_append]

end Emitter

namespace Pass

variable {context : PassContext} {sheet : Sheet} {file : Option Path} {p : Pass} {out : Output}

/-- What has become of a sheet in which these variables are declared: a rule with
their declarations stands at the index, without which the sheet is as it was,
save that what stood first begins on a line of its own if the rule is put before
it. -/
structure Standalone (context : PassContext) (sheet : Sheet) (declared : List (Ident × String)) (index : Nat)
    (after : Sheet) : Prop where
  rule :
    let rule := Node.newRule context.settings.rootSelector (declared.map fun d => Node.newDeclaration d.1.text d.2)
    after.nodes[index]? = .some (if index = 0 then rule.withBefore "" else rule)
  others : { after with nodes := after.nodes.eraseIdx index } =
    { sheet with nodes := if index = 0 then Node.openLine sheet.nodes else sheet.nodes }
  /-- The rule stands after the imports and after what the variables depend on. -/
  imports : ∀ j node, sheet.nodes[j]? = .some node → node.isImport = true → j < index
  dependencies : ∀ j node, sheet.nodes[j]? = .some node → ∀ d ∈ declared, ∀ v, context.theme.get? d.1 = .some v →
    ∀ i ∈ v.dependencies, node.Declares context.dialect context.settings.identMode i → j < index

theorem merges_emitter (htheme : context.theme = .merged context.imports) (p : Pass) : (p.emitter context).Merges := by
  intro i
  change context.theme.get? i = _
  rw [htheme]
  exact Table.get?_merged _ i

/-- The rule is put in at such an index. -/
theorem standalone_insertAt (hp : (scan context sheet file).resolve context = .ok p) {idents anchors : List Ident}
    {nodes : List Node} {declared : List (Ident × String)}
    (h : (p.emitter context).Declared idents nodes anchors declared) :
    ∃ index, Standalone context sheet declared index
      (sheet.insertAt (insertionIndex sheet p.table anchors) (Node.newRule context.settings.rootSelector nodes)) := by
  let bound := insertionIndex sheet p.table anchors
  have hlt : ∀ j node, sheet.nodes[j]? = .some node → j < bound → j < (sheet.nodes.take bound).length := by
    intro j node hj hbound
    obtain ⟨hlength, -⟩ := List.getElem?_eq_some_iff.1 hj
    rw [List.length_take]
    exact Nat.lt_min.2 ⟨hbound, hlength⟩
  refine ⟨(sheet.nodes.take bound).length, ?_, ?_, fun j node hj himport => ?_, fun j node hj d hd v hv i hi hnode => ?_⟩
  · rw [Node.insertAt_eq, h.nodes]
    exact Node.getElem?_joined _ _ _
  · have herase := Node.eraseIdx_joined (sheet.nodes.take bound) (sheet.nodes.drop bound)
      (Node.newRule context.settings.rootSelector nodes)
    rw [List.take_append_drop] at herase
    rw [Node.insertAt_eq]
    exact congrArg (fun nodes => { sheet with nodes }) herase
  · exact hlt j node hj (lt_insertionIndex_of_import sheet p.table anchors hj himport)
  · have hanchor : i ∈ anchors := h.anchors d.1 (h.order ▸ List.mem_map_of_mem hd) v hv hi
    obtain ⟨w, hw, hle⟩ := position_resolve hp hj hnode
    exact hlt j node hj (Nat.lt_of_le_of_lt hle (position_lt_insertionIndex hanchor hw sheet))

/-- Besides Scss, whose root rules are changed after this, a file with the theme
declared in it has a rule that declares the variables asked for, each once and in
the order of the theme, with the values that it has to write for them; the
messages are of the same variables and values. The rule stands after the imports
and after all that the variables depend on. The file is as it was without it, and
where there is nothing to declare. -/
theorem emit_standalone (context : PassContext) (hd : context.dialect ≠ .scss)
    (htheme : context.theme = .merged context.imports) (sheet : Sheet) (file : Option Path)
    (hp : (scan context sheet file).resolve context = .ok p)
    (h : p.emit context .standalone = .ok out) :
    ∃ declared : List (Ident × String),
      Selects ((p.emitter context).classifier.isCandidate · = true) context.theme.idents (declared.map Prod.fst) ∧
        (∀ d ∈ declared, (p.emitter context).Imported d) ∧ out.log.told .themeVariable = declared ∧
        (declared = [] → out.sheet = sheet) ∧
        (declared ≠ [] → ∃ index, Standalone context sheet declared index out.sheet) := by
  let e := p.emitter context
  obtain ⟨-, hsheet, hfile⟩ := resolve_undone hp
  obtain ⟨after, s, t, htell, hstandalone, rfl⟩ := emit_ok h
  rw [show interpolated context after = after from if_neg (by simpa using hd)]
  obtain ⟨-, hmemo, htold⟩ := Emitter.quiet_tellContext _ _ _ s htell
  have hselects : Selects (e.classifier.isCandidate · = true) context.theme.idents (p.classify context).theme :=
    selects_filter context.theme.nodup_idents fun _ => .rfl
  have hcontains : ∀ i ∈ (p.classify context).theme, e.context.theme.contains i = true := fun i hi =>
    Table.contains_iff.2 (Table.mem_idents.1 ((hselects.mem i).1 hi).1)
  have hfaithful : e.surroundings.Faithful s.memo := by
    rw [hmemo, show e.surroundings = surroundings context file from congrArg (surroundings context) hfile]
    have hstart : (surroundings context file).Faithful {} := Surroundings.faithful_empty _
    exact faithful_resolve (p := scan context sheet file) hstart hp
  change (e.standalone p.sheet).run s = _ at hstandalone
  unfold Emitter.standalone at hstandalone
  by_cases hempty : e.classification.theme.isEmpty = true
  · have hnil : (p.classify context).theme = [] := List.isEmpty_iff.1 hempty
    rw [if_pos hempty] at hstandalone
    cases hstandalone
    rw [hnil] at hselects
    exact ⟨[], hselects, fun _ hd => (nomatch hd), htold, fun _ => hsheet, fun hne => absurd rfl hne⟩
  · rw [if_neg hempty, StateT.run_bind] at hstandalone
    obtain ⟨⟨⟨nodes, anchors⟩, u⟩, hdeclarations, hret⟩ := bind_ok.1 hstandalone
    cases hret
    obtain ⟨declared, hdeclared, htold'⟩ :=
      Emitter.themeDeclarations_run (merges_emitter htheme p) hselects.once hcontains hfaithful
        (by rw [htold]; exact fun _ hd => nomatch hd) hdeclarations
    refine ⟨declared, hdeclared.order ▸ hselects, hdeclared.values, ?_, fun hnil => ?_, fun _ => ?_⟩
    · rw [htold', htold]
      rfl
    · have horder := hdeclared.order
      rw [hnil] at horder
      exact absurd (List.isEmpty_iff.2 horder.symm) hempty
    · rw [show p.sheet = sheet from hsheet]
      exact standalone_insertAt hp hdeclared

/-- Two theme files, the second of which has its own color and a picture next to
it; the first color depends on another variable. -/
def posters : List Table :=
  [.ofList [{ ident := .ofName .debug "--paint", name := "--paint", raw := "var(--base)", resolved := "red",
              dependencies := [.ofName .debug "--base"], parsed := true }],
    .ofList [{ ident := .ofName .debug "--icon", name := "--icon", raw := "url(icon.png)", resolved := "url(icon.png)",
               parsed := true, urls := .some ⟨⟨"/b/theme.css"⟩, ["icon.png"]⟩ }]]

def postering : PassContext := ⟨{}, .css, posters, .merged posters⟩

/-- A file that declares the other variable itself. -/
def poster : Sheet where
  nodes := [.statement "import" "\"theme.css\"" "" " " "" true,
    .rule ":root" [.declaration "--base" "blue" { before := " ", between := ": ", after := " " } false]
      { before := "\n", between := " " },
    .rule "a" [.declaration "color" "var(--paint)" { before := " ", between := ": ", after := " " } false]
      { before := "\n", between := " " }]

theorem emit_standalone_poster :
    postering.dialect ≠ .scss ∧
      ∃ p out, (scan postering poster (.some ⟨"/c/a.css"⟩)).resolve postering = .ok p ∧
        p.emit postering .standalone = .ok out ∧
        out.sheet.print = "@import \"theme.css\";\n:root \x7b --base: blue \x7d" ++
          "\n:root \x7b\n  --paint-d571009b: red;\n  --icon-6133fadc: url(../b/icon.png);\n\x7d" ++
          "\na \x7b color: var(--paint) \x7d" ∧
        ∃ index, Standalone postering poster
          [(.ofName .debug "--paint", "red"), (.ofName .debug "--icon", "url(../b/icon.png)")] index out.sheet := by
  have hd : postering.dialect ≠ .scss := by decide
  have hrun : ((scan postering poster (.some ⟨"/c/a.css"⟩)).resolve postering >>= fun p =>
      (p.emit postering .standalone).map fun out => (out.sheet.print, out.log.told .themeVariable)) =
      .ok ("@import \"theme.css\";\n:root \x7b --base: blue \x7d" ++
          "\n:root \x7b\n  --paint-d571009b: red;\n  --icon-6133fadc: url(../b/icon.png);\n\x7d" ++
          "\na \x7b color: var(--paint) \x7d",
        [(.ofName .debug "--paint", "red"), (.ofName .debug "--icon", "url(../b/icon.png)")]) := by
    decide +kernel
  obtain ⟨p, hp, hemit⟩ := bind_ok.1 hrun
  obtain ⟨out, hout, heq⟩ := map_ok.1 hemit
  obtain ⟨hprint, htold⟩ := Prod.mk.inj heq
  obtain ⟨declared, -, -, hdeclared, -, hrule⟩ := emit_standalone postering hd rfl poster _ hp hout
  rw [htold] at hdeclared
  subst hdeclared
  exact ⟨hd, p, out, hp, hout, hprint, hrule (List.cons_ne_nil _ _)⟩

end Pass

end ThemeVars
