/-
What values mean before and after a file is written in place. `emit_meaning`: a
declaration that can be rewritten means what it meant, and the run time value of
a variable means what the variable was resolved to.
-/
import ThemeVars.Proofs.Emission.InPlace
import ThemeVars.Proofs.Emission.Standalone
import ThemeVars.Proofs.Value.Fallback
import ThemeVars.Proofs.Variable.Lookup

namespace ThemeVars

open Node (settingsAll)
open Value (meaning IsFallback Neat Writes)

/-! ## States with a faithful memo -/

namespace Surroundings

variable {α β : Type} (s : Surroundings)

/-- However the computation comes out from a faithful memo, its result is such as
`post` says, and the memo is faithful then. -/
def Faithfully (x : Emitting α) (post : α → Prop) : Prop :=
  ∀ st a st', s.Faithful st.memo → x.run st = .ok (a, st') → post a ∧ s.Faithful st'.memo

variable {s}

theorem faithfully_pure {a : α} {post : α → Prop} (h : post a) : s.Faithfully (pure a) post := by
  intro st b st' hm hrun
  cases hrun
  exact ⟨h, hm⟩

theorem faithfully_lift (x : Except Error α) : s.Faithfully (liftM x) fun a => x = .ok a := by
  intro st a st' hm hrun
  obtain ⟨hx, rfl⟩ := Emitter.run_lift_ok.1 hrun
  exact ⟨hx, hm⟩

theorem Faithfully.bind {x : Emitting α} {f : α → Emitting β} {p : α → Prop} {q : β → Prop} (h : s.Faithfully x p)
    (hf : ∀ a, p a → s.Faithfully (f a) q) : s.Faithfully (x >>= f) q := by
  intro st b st' hm hrun
  rw [StateT.run_bind] at hrun
  obtain ⟨⟨a, t⟩, hx, hfa⟩ := bind_ok.1 hrun
  obtain ⟨ha, ht⟩ := h st a t hm hx
  exact hf a ha t b st' ht hfa

theorem faithfully_get {f : Emission → Emitting α} {p : α → Prop} (h : ∀ t, s.Faithfully (f t) p) :
    s.Faithfully (get >>= f) p := fun st a st' hm hrun => h st st a st' hm hrun

theorem faithfully_when {c : Prop} [Decidable c] {x : Emitting Unit} {k : Unit → Emitting α} {p : α → Prop}
    (hx : s.Faithfully x fun _ => True) (hk : ∀ a, s.Faithfully (k a) p) :
    s.Faithfully (if c then x >>= k else k ()) p := by
  split
  · exact hx.bind fun a _ => hk a
  · exact hk ()

/-- What relocates only what the imports hold leaves the memo faithful. -/
theorem faithfully_of_scripted {x : Emitting α} (h : Scripted s.file s.Holds x) : s.Faithfully x fun _ => True := by
  intro st a st' hm hrun
  exact ⟨trivial, (h.unaided hm (st.log, st.used)).2 a st'.memo (st'.log, st'.used) (Emitting.outcome_ok hrun)⟩

end Surroundings

namespace Emitter

variable {e : Emitter}

/-! ## What takes the place of a reference -/

/-- A reference by this name is replaced. -/
def replacesName (e : Emitter) (colorProperty : Bool) (name : String) : Bool := e.isReplaced colorProperty ⟨name, name, .sigil⟩

/-- A reference is replaced by one with the text that is found for it as its
fallback. -/
def Answered (e : Emitter) (colorProperty : Bool) (r : Reference) (new : Option String) : Prop :=
  ∀ text, new = .some text → e.replacesName colorProperty r.name = true ∧
    ∃ x, e.surroundings.found e.table r = .ok (.some x) ∧ text = varWithFallback (e.target r) x.1

/-- A reference to a theme variable has a name, and the file no variable of it. -/
theorem absent_of_isThemes {colorProperty : Bool} {r : Reference} (h : e.isThemes colorProperty r = true) :
    r.name.isEmpty = false ∧ e.table.get? (e.target r) = .none := by
  simp only [isThemes, Classifier.isCandidate, Bool.and_eq_true, Bool.or_eq_true, Bool.not_eq_true'] at h
  have htheme : e.classifier.isTheme (e.target r) = true := h.2.elim (·.1) (·.2)
  simp only [Classifier.isTheme, Bool.and_eq_true, Bool.not_eq_true'] at htheme
  exact ⟨h.1, Table.contains_eq_false.1 htheme.1⟩

theorem faithfully_relocated {i : Ident} {v : Variable} (hv : Table.findLast? e.context.imports i = .some v) :
    e.surroundings.Faithfully (e.relocated v) fun value => e.surroundings.imported v = .ok value := by
  intro st value st' hm hrun
  obtain ⟨himported, hfaithful, -⟩ := relocated_run hm hv hrun
  exact ⟨himported, hfaithful⟩

theorem faithfully_tell (v : Variable) (kind : MessageKind) (value : String) :
    e.surroundings.Faithfully (e.tell v kind value) fun _ => True :=
  Surroundings.faithfully_of_scripted (scripted_tell v kind value)

variable (htheme : e.context.theme = .merged e.context.imports)
include htheme

theorem faithfully_themeValue (ident : Ident) :
    e.surroundings.Faithfully (e.themeValue ident) fun found => ∀ v value, found = .some (v, value) →
      Table.findLast? e.context.imports ident = .some v ∧ e.surroundings.imported v = .ok value := by
  unfold themeValue
  rcases hv : e.context.theme.get? ident with _ | v
  · exact Surroundings.faithfully_pure fun _ _ h => nomatch h
  · have hlast : Table.findLast? e.context.imports ident = .some v := by
      rw [← Table.get?_merged, ← htheme, hv]
    refine (faithfully_relocated hlast).bind fun value hvalue => (faithfully_tell _ _ _).bind fun _ _ => ?_
    refine Surroundings.faithfully_when (faithfully_tell _ _ _) fun _ =>
      Surroundings.faithfully_when (faithfully_tell _ _ _) fun _ => Surroundings.faithfully_pure fun w x hw => ?_
    cases hw
    exact ⟨hlast, hvalue⟩

theorem faithfully_replacement? (colorProperty : Bool) (r : Reference) :
    e.surroundings.Faithfully (e.replacement? colorProperty r) (e.Answered colorProperty r) := by
  have htext (i : Ident) (text : String) (ds : List Ident) : (Expansion.ofVariable i text ds).1 = text := by
    rw [Expansion.ofVariable_eq]
  have hnone : e.surroundings.Faithfully (pure .none) (e.Answered colorProperty r) :=
    Surroundings.faithfully_pure fun _ h => nomatch h
  rw [replacement?_eq]
  split
  · rename_i hthemes
    refine (faithfully_themeValue htheme (e.target r)).bind fun found hfound => ?_
    rcases found with _ | ⟨v, value⟩
    · exact hnone
    · obtain ⟨hlast, himported⟩ := hfound v value rfl
      refine Surroundings.faithfully_pure fun text h => ?_
      cases h
      have hreplaced : e.isReplaced colorProperty r = true := by rw [isReplaced, hthemes, Bool.true_or]
      refine ⟨hreplaced, .ofVariable (e.target r) value v.dependencies, ?_, by rw [htext]⟩
      obtain ⟨hname, htable⟩ := absent_of_isThemes hthemes
      exact Surroundings.found_external (s := e.surroundings) (t := e.table) hname htable hlast himported
  · split
    · rename_i hlocals
      rcases hv : e.table.get? (e.target r) with _ | v
      · exact hnone
      · refine (Surroundings.faithfully_of_scripted (scripted_use (e.target r))).bind fun _ _ => ?_
        refine Surroundings.faithfully_pure fun text h => ?_
        cases h
        have hreplaced : e.isReplaced colorProperty r = true := by rw [isReplaced, hlocals, Bool.or_true]
        refine ⟨hreplaced, .ofVariable (e.target r) v.resolved v.dependencies, ?_, by rw [htext]⟩
        have hname : r.name.isEmpty = false := by
          simp only [isLocals, Bool.and_eq_true, Bool.not_eq_true'] at hlocals
          exact hlocals.1
        exact Surroundings.found_declared hname hv
    · exact hnone

omit htheme

/-! ## What can be rewritten -/

/-- What a reference to the custom property refers to that the reference is
replaced by. -/
def property (e : Emitter) (r : Reference) : Ident := .ofName e.context.settings.identMode (e.target r).text

/-- The value that the reference stands for can be a fallback, and no variable
has the custom property for its name. -/
structure Substitutable (e : Emitter) (r : Reference) : Prop where
  fallback : ∀ x, e.surroundings.found e.table r = .ok (.some x) → IsFallback e.context.dialect.sigil? x.1
  undeclared : e.table.get? (e.property r) = .none
  unimported : Table.findLast? e.context.imports (e.property r) = .none

/-- The references in the body of a value can be replaced where they stand: each
block is closed, no token before a reference goes on with a name, each `var()`
around one can be written anew, and each can be substituted. -/
structure Rewritable (e : Emitter) (colorProperty : Bool) (body : String) : Prop where
  closed : (Pieces.ofText body.toList).Closed
  loose : Loose e.context.dialect.sigil? (e.replacesName colorProperty) (lexemes body.toList)
  neat : ∀ v, Value.read e.context.dialect.sigil? body = .ok v → Neat (fun o => e.replacesName colorProperty o.name) false v
  substitutable : ∀ v, Value.read e.context.dialect.sigil? body = .ok v → ∀ r ∈ v.references,
    e.replacesName colorProperty r.name = true → e.Substitutable r

instance (e : Emitter) : DecidablePred e.Substitutable := fun r =>
  decidable_of_iff
    ((e.surroundings.found e.table r).toOption.join.all (fun x => decide (IsFallback e.context.dialect.sigil? x.1)) = true ∧
      e.table.get? (e.property r) = .none ∧ Table.findLast? e.context.imports (e.property r) = .none) <| by
    refine ⟨fun ⟨hfallback, hundeclared, hunimported⟩ => ⟨fun x hx => ?_, hundeclared, hunimported⟩,
      fun h => ⟨?_, h.undeclared, h.unimported⟩⟩
    · simpa [hx, Except.toOption] using hfallback
    · rcases hfound : e.surroundings.found e.table r with _ | _ | x
      · rfl
      · rfl
      · simpa [Except.toOption] using h.fallback x hfound

instance (e : Emitter) (colorProperty : Bool) : DecidablePred (e.Rewritable colorProperty) := fun body =>
  decidable_of_iff
    ((Pieces.ofText body.toList).Closed ∧ Loose e.context.dialect.sigil? (e.replacesName colorProperty) (lexemes body.toList) ∧
      (Value.read e.context.dialect.sigil? body).toOption.all fun v =>
        decide (Neat (fun o => e.replacesName colorProperty o.name) false v ∧
          ∀ r ∈ v.references, e.replacesName colorProperty r.name = true → e.Substitutable r)) <| by
    constructor
    · rintro ⟨hclosed, hloose, hvalue⟩
      have hread : ∀ v, Value.read e.context.dialect.sigil? body = .ok v →
          Neat (fun o => e.replacesName colorProperty o.name) false v ∧
            ∀ r ∈ v.references, e.replacesName colorProperty r.name = true → e.Substitutable r := fun v hv => by
        simpa only [hv, Except.toOption, Option.all_some, decide_eq_true_eq] using hvalue
      exact ⟨hclosed, hloose, fun v hv => (hread v hv).1, fun v hv => (hread v hv).2⟩
    · intro h
      refine ⟨h.closed, h.loose, ?_⟩
      cases hv : Value.read e.context.dialect.sigil? body with
      | error _ => rfl
      | ok v =>
        simp only [Except.toOption, Option.all_some, decide_eq_true_eq]
        exact ⟨h.neat v hv, h.substitutable v hv⟩

/-- What is found does not hang on how a reference is written. -/
theorem found_congr {r r' : Reference} (h : r.name = r'.name) :
    e.surroundings.found e.table r = e.surroundings.found e.table r' := by
  simp only [Surroundings.found, Surroundings.target, h]

/-- The custom property stands for nothing. -/
theorem Substitutable.found_eq_none {r : Reference} (h : e.Substitutable r) (raw : String) :
    e.surroundings.found e.table ⟨(e.target r).text, raw, .var⟩ = .ok .none := by
  have hname : (e.target r).text.isEmpty = false := by
    obtain ⟨c, cs, htext, -⟩ := Ident.ofName_isLegal e.context.settings.identMode r.name
    rw [String.isEmpty_eq_false_iff]
    intro hempty
    have hlist := congrArg String.toList hempty
    rw [target, htext] at hlist
    cases hlist
  exact Surroundings.found_missing hname h.undeclared h.unimported

/-! ## Values -/

/-- What the text of a value means in the file. -/
def meaning (e : Emitter) (text : String) : Except Error (List Char) :=
  (e.surroundings.lookedUp e.table text).map fun x => inked x.1

/-- A value that can be rewritten means what it meant. -/
def MeansAlike (e : Emitter) (colorProperty : Bool) (before after : String) : Prop :=
  e.Rewritable colorProperty (Value.stripPriority before) → e.meaning after = e.meaning before

/-- A text means what the value means that its body is read as. -/
theorem meaning_of_read {text : String} {v : Value} (h : Value.read e.context.dialect.sigil? (Value.stripPriority text) = .ok v) :
    e.meaning text = Value.meaning (e.surroundings.found e.table) v := by
  have hreading : e.surroundings.reading text = .ok v := mapError_ok.2 h
  rw [meaning, Surroundings.lookedUp, hreading]
  rfl

variable {colorProperty : Bool} {body out priority : String} {v : Value}

/-- Each reference is answered, if it is one that the value has. -/
def AnsweredIn (e : Emitter) (colorProperty : Bool) (v : Value) (r : Reference) (_ : Bool) (new : Option String) : Prop :=
  r ∈ v.references ∧ e.Answered colorProperty r new

theorem AnsweredIn.closer {r : Reference} {b : Bool} {new : String} (h : e.AnsweredIn colorProperty v r b (.some new)) :
    ∃ front, new.toList = front ++ Bracket.round.closer.toList := by
  obtain ⟨-, x, -, rfl⟩ := h.2 new rfl
  unfold varWithFallback
  split
  · exact ⟨_, String.toList_append⟩
  · exact ⟨_, String.toList_append⟩

/-- The answers fit in the places of the references, and stand for what is found
for these. -/
theorem Rewritable.admits (h : e.Rewritable colorProperty body) (hv : Value.read e.context.dialect.sigil? body = .ok v) :
    Value.Admits (Loose e.context.dialect.sigil? (e.replacesName colorProperty)) e.context.dialect.sigil?
      (fun o => e.replacesName colorProperty o.name) (e.AnsweredIn colorProperty v) (fun _ _ => True)
      (fun r _ x => Value.StandsFor (e.surroundings.found e.table) r x) where
  kept _ _ _ := trivial
  asked r b new hr := (hr.2 new rfl).1
  fits r b new ls hr hls := by
    obtain ⟨hmay, x, hx, rfl⟩ := hr.2 new rfl
    have hsub := h.substitutable v hv r hr.1 hmay
    obtain ⟨q, y, hq, hy⟩ := (hsub.fallback x hx).fits (Ident.ofName_isLegal _ _).fitsCustom hls hmay
    exact ⟨q, y, hq, x, hx, hy _ fun raw => hsub.found_eq_none raw⟩

/-- What is written of a body that can be rewritten means what the body means,
whatever markers are behind it. -/
theorem Rewritable.meaning_eq {text : String} (h : e.Rewritable colorProperty (Value.stripPriority text))
    (hv : Value.read e.context.dialect.sigil? (Value.stripPriority text) = .ok v)
    (hw : Writes (e.AnsweredIn colorProperty v) false v out) (hp : Value.IsPriority priority.toList) :
    e.meaning (out ++ priority) = e.meaning text := by
  have hunmarked : Value.Unmarked (Value.stripPriority text).toList.reverse := (Value.splitPriority_toList text).2.2
  have hstrip : Value.stripPriority (out ++ priority) = out :=
    Value.stripPriority_writes (fun _ _ _ hr => hr.closer) hv hw hunmarked hp
  obtain ⟨w, hread, -, hbecomes⟩ := Value.becomes_of_writes (fun hs => hs.2) hv h.closed h.loose (h.admits hv) (h.neat v hv) hw
  rw [meaning_of_read hv, meaning_of_read (hstrip.symm ▸ hread)]
  exact hbecomes.meaning fun r r' hname => found_congr hname

section

variable (htheme : e.context.theme = .merged e.context.imports)
include htheme

theorem faithfully_rewrite (colorProperty : Bool) (v : Value) :
    e.surroundings.Faithfully (v.rewrite (fun r _ => e.replacement? colorProperty r) false)
      (Writes (e.AnsweredIn colorProperty v) false v) := by
  intro s out t hm hrun
  have hanswers (r : Reference) (hr : r ∈ v.references) (b : Bool) (s : Emission) (new : Option String) (t : Emission)
      (hs : e.surroundings.Faithful s.memo) (hnew : (e.replacement? colorProperty r).run s = .ok (new, t)) :
      e.surroundings.Faithful t.memo ∧ e.AnsweredIn colorProperty v r b new := by
    obtain ⟨hanswered, ht⟩ := faithfully_replacement? htheme colorProperty r s new t hs hnew
    exact ⟨ht, hr, hanswered⟩
  exact (Value.writes_of_run hanswers hm hrun).symm

theorem faithfully_rewriteValue (property value : String) :
    e.surroundings.Faithfully (e.rewriteValue property value) (e.MeansAlike (e.isColorProperty property) value) := by
  change e.surroundings.Faithfully
    (if e.isDefinition property = true then pure value else (liftM (e.reading value)) >>= _) _
  split
  · exact Surroundings.faithfully_pure fun _ => rfl
  refine (Surroundings.faithfully_lift (e.reading value)).bind fun v hv => ?_
  split
  · exact Surroundings.faithfully_pure fun _ => rfl
  refine (faithfully_rewrite htheme _ v).bind fun out hout => Surroundings.faithfully_pure fun h => ?_
  split
  · rfl
  · exact h.meaning_eq (mapError_ok.1 hv) hout (Value.splitPriority_toList value).2.1

theorem faithfully_declaration (v : Variable) :
    e.surroundings.Faithfully (e.declaration v) (e.MeansAlike false v.raw) := by
  refine (Surroundings.faithfully_lift (e.reading v.raw)).bind fun value hvalue => ?_
  refine (faithfully_rewrite htheme false value).bind fun out hout => (faithfully_tell _ _ _).bind fun _ _ => ?_
  refine Surroundings.faithfully_pure fun h => ?_
  have hnone : Value.IsPriority "".toList := ⟨[], [], List.forall_mem_nil _, List.forall_mem_nil _, rfl⟩
  rw [← String.append_empty (s := out)]
  exact h.meaning_eq (mapError_ok.1 hvalue) hout hnone

/-- Each value that a variable is declared with at run time means what the value
of the variable means. -/
theorem faithfully_runtimeDeclarations (waiting : List Ident) (done : Nat) :
    e.surroundings.Faithfully (e.runtimeDeclarations waiting done) fun declared =>
      ∀ d ∈ declared, ∃ v, e.table.get? d.1 = .some v ∧ e.MeansAlike false v.raw d.2 := by
  have hnone : e.surroundings.Faithfully (pure []) fun declared : List (Ident × String) =>
      ∀ d ∈ declared, ∃ v, e.table.get? d.1 = .some v ∧ e.MeansAlike false v.raw d.2 :=
    Surroundings.faithfully_pure fun _ h => nomatch h
  induction waiting using Table.erase_induction generalizing done with
  | step waiting ih =>
    rw [runtimeDeclarations_eq]
    refine Surroundings.faithfully_get fun s => ?_
    rcases s.used[done]? with _ | ident
    · exact hnone
    simp only
    split
    · rename_i hident
      rcases hv : e.table.get? ident with _ | v
      · exact ih ident hident (done + 1)
      · refine (faithfully_declaration htheme v).bind fun value hvalue => (ih ident hident (done + 1)).bind fun rest hrest => ?_
        exact Surroundings.faithfully_pure (List.forall_mem_cons.2 ⟨⟨v, hv, hvalue⟩, hrest⟩)
    · exact hnone

end

/-! ## Sheets -/

/-- The second declaration means what the first means, if that can be rewritten. -/
def MeansWhat (e : Emitter) (before after : Setting) : Prop :=
  e.MeansAlike (e.isColorProperty before.property) before.value after.value

mutual

theorem faithfully_rewriteNode (htheme : e.context.theme = .merged e.context.imports) (depth : Depth) : (node : Node) →
    e.surroundings.Faithfully (e.rewriteNode node) fun after =>
      List.Forall₂ e.MeansWhat (node.settings depth) (after.settings depth)
  | .rule selector children spacing => by
    rw [rewriteNode]
    exact (faithfully_rewriteNodes htheme (depth.within selector) children).bind fun _ h => Surroundings.faithfully_pure h
  | .declaration property value spacing semicolon => by
    rw [rewriteNode]
    exact (faithfully_rewriteValue htheme property value).bind fun _ h => Surroundings.faithfully_pure (.cons h .nil)
  | .statement .. => by
    rw [rewriteNode]
    exact Surroundings.faithfully_pure .nil
  | .group name params children spacing afterName => by
    rw [rewriteNode]
    exact (faithfully_rewriteNodes htheme .inner children).bind fun _ h => Surroundings.faithfully_pure h
  | .comment .. => by
    rw [rewriteNode]
    exact Surroundings.faithfully_pure .nil

theorem faithfully_rewriteNodes (htheme : e.context.theme = .merged e.context.imports) (depth : Depth) :
    (nodes : List Node) → e.surroundings.Faithfully (e.rewriteNodes nodes) fun after =>
      List.Forall₂ e.MeansWhat (settingsAll depth nodes) (settingsAll depth after)
  | [] => by
    rw [rewriteNodes]
    exact Surroundings.faithfully_pure .nil
  | node :: rest => by
    rw [rewriteNodes]
    exact (faithfully_rewriteNode htheme depth node).bind fun _ ha =>
      (faithfully_rewriteNodes htheme depth rest).bind fun _ hb => Surroundings.faithfully_pure (List.rel_append ha hb)

end

end Emitter

/-! ## A pass -/

namespace Pass

variable {context : PassContext} {sheet : Sheet} {file : Option Path} {p : Pass} {out : Output}

/-- What the text of a value is resolved to in the file, without blanks. -/
def meaning (context : PassContext) (p : Pass) (text : String) : Except Error (List Char) :=
  (((surroundings context p.file).resolveValue text).run.run ⟨p.table, p.memo⟩ : Except Error Expansion × Progress).1.map
    fun x => inked x.1

/-- In a file that is resolved, the memo changes nothing about that. -/
theorem meaning_eq (hp : (scan context sheet file).resolve context = .ok p) (text : String) :
    p.meaning context text = (p.emitter context).meaning text := by
  have hfile : p.file = file := (resolve_undone hp).2.2
  have hfaithful : (surroundings context p.file).Faithful p.memo := by
    rw [hfile]
    exact faithful_resolve (surroundings context file).faithful_empty hp
  have hparsed : ∀ v ∈ p.table.records, v.parsed = true := by
    intro v hv
    exact (resolve_ok hp).2.2 (Surroundings.resolveTable_parsed _) _ v (Table.get?_of_mem hv)
  obtain ⟨memo, -, hrun⟩ := Surroundings.comes_resolveValue hparsed text p.memo hfaithful
  rw [meaning, hrun]
  rfl

/-- In a file without cycles, the value of a variable as it is written means what
the variable is resolved to. -/
theorem meaning_raw (hp : (scan context sheet file).resolve context = .ok p)
    (ha : (surroundings context file).Acyclic (scan context sheet file).table) {i : Ident} {v : Variable}
    (hv : p.table.get? i = .some v) : p.meaning context v.raw = .ok (inked v.resolved) := by
  let s := surroundings context file
  let t := (scan context sheet file).table
  have hunparsed : ∀ v ∈ t.records, v.parsed = false := by
    intro v hv
    obtain ⟨_, -, rfl⟩ := Sheet.mem_scan hv
    rfl
  have hfile : p.file = file := (resolve_undone hp).2.2
  have hsettled : List.Forall₂ (s.Settles t) t.records p.table.records := by
    have hends := Surroundings.resolveTable_ends hunparsed ha (.start s t)
    exact (resolve_ok hp).2.2 (hends.mono (fun _ _ h => h) fun _ _ => trivial)
  have hget := Table.get?_forall₂ (fun _ _ => Surroundings.Settles.ident) hsettled i
  rw [hv] at hget
  generalize t.get? i = o at hget
  cases hget with
  | some hsettles =>
    obtain ⟨x, urls, hx, -, rfl⟩ := hsettles
    rw [meaning_eq hp, Emitter.meaning]
    change (((surroundings context p.file).lookedUp p.table _).map _) = _
    rw [hfile, hx.lookedUp hsettled]
    rfl

/-- In a file that is written in place, each declaration is resolved to what it
was resolved to before, blanks aside, if its value can be rewritten. So is the
run time value of a variable to what the variable's own value is resolved to,
and in a file without cycles that is what the variable has been resolved to. -/
theorem emit_meaning (context : PassContext) (sheet : Sheet) (file : Option Path) {p : Pass} {out : Output}
    (htheme : context.theme = .merged context.imports) (hp : (scan context sheet file).resolve context = .ok p)
    (h : p.emit context .inPlace = .ok out) :
    ∃ rewritten written declared left index note after,
      (p.emitter context).InPlace sheet.nodes rewritten written declared left index note after ∧
        out.sheet = interpolated context { sheet with nodes := after } ∧ out.log.declarations = declared ∧
        List.Forall₂
          (fun before after =>
            (p.emitter context).Rewritable ((p.emitter context).isColorProperty before.property)
              (Value.stripPriority before.value) →
            p.meaning context after.value = p.meaning context before.value)
          (settingsAll .top sheet.nodes) (settingsAll .top rewritten) ∧
        ∀ d ∈ declared, ∃ v, p.table.get? d.1 = .some v ∧
          ((p.emitter context).Rewritable false (Value.stripPriority v.raw) →
            p.meaning context d.2 = p.meaning context v.raw ∧
              ((surroundings context file).Acyclic (scan context sheet file).table →
                p.meaning context d.2 = .ok (inked v.resolved))) := by
  have hfaithful : (p.emitter context).surroundings.Faithful p.memo := by
    change (surroundings context p.file).Faithful p.memo
    rw [(resolve_undone hp).2.2]
    exact faithful_resolve (surroundings context file).faithful_empty hp
  have hsheet : p.sheet = sheet := (resolve_undone hp).2.1
  obtain ⟨rewritten, written, declared, left, index, note, after, hspec, hout, htold, s, htell, t, u, hrewritten,
    hdeclared⟩ := emit_inPlace h
  rw [hsheet] at hspec hout hrewritten
  obtain ⟨-, hs⟩ := Surroundings.faithfully_of_scripted (s := (p.emitter context).surroundings)
    (Emitter.scripted_tellContext _ _) _ _ _ hfaithful htell
  obtain ⟨hvalues, ht⟩ := Emitter.faithfully_rewriteNodes htheme .top sheet.nodes _ _ _ hs hrewritten
  obtain ⟨hdeclarations, -⟩ := Emitter.faithfully_runtimeDeclarations htheme _ 0 _ _ _ ht hdeclared
  refine ⟨rewritten, written, declared, left, index, note, after, hspec, hout, htold, ?_, fun d hd => ?_⟩
  · refine hvalues.imp fun before after halike hrewritable => ?_
    rw [meaning_eq hp, meaning_eq hp]
    exact halike hrewritable
  · obtain ⟨v, hv, halike⟩ := hdeclarations d hd
    refine ⟨v, hv, fun hrewritable => ?_⟩
    have hsame : p.meaning context d.2 = p.meaning context v.raw := by
      rw [meaning_eq hp, meaning_eq hp]
      exact halike hrewritable
    exact ⟨hsame, fun ha => hsame.trans (meaning_raw hp ha hv)⟩

/-- A reference in a fallback, in a function, before a marker. -/
def tinted : Sheet where
  nodes := [.declaration "$link" "$paint" { between := ": " } true,
    .rule "a" [.declaration "border" "1px rgb(var(--b, $link))!important"
      { before := " ", between := ": ", after := " " } false] { before := "\n", between := " " }]

theorem acyclic_tinted : (surroundings painting .none).Acyclic (scan painting tinted .none).table := by
  have hraw : ∀ v ∈ (scan painting tinted .none).table.records, v.raw = "$paint" := by decide +kernel
  have hreading : (surroundings painting .none).reading "$paint" = .ok (.reference ⟨"$paint", "$paint", .sigil⟩ .done) := by
    decide +kernel
  have habsent : (scan painting tinted .none).table.contains (.ofName .debug "$paint") = false := by decide +kernel
  refine .of_rank (fun _ => 0) ?_
  rintro i j ⟨v, value, r, hv, hvalue, hr, -, rfl, hj⟩
  rw [hraw v (Table.mem_of_get? hv), hreading] at hvalue
  cases hvalue
  cases List.mem_singleton.1 hr
  cases habsent.symm.trans hj

theorem emit_meaning_tinted :
    ∃ p out rewritten declared, (scan painting tinted .none).resolve painting = .ok p ∧
      p.emit painting .inPlace = .ok out ∧
      out.sheet.print = "$link: $paint;\n:root \x7b\n  --link-7f5a413f: var(--paint-c079918d, red);\n\x7d\na \x7b border: " ++
        "1px rgb(var(--b, var(--link-7f5a413f, red)))!important \x7d" ∧
      (∃ s t, ((p.emitter painting).rewriteNodes tinted.nodes).run s = .ok (rewritten, t)) ∧
      List.Forall₂ (fun before after => p.meaning painting after.value = p.meaning painting before.value)
        (settingsAll .top tinted.nodes) (settingsAll .top rewritten) ∧
      out.log.declarations = declared ∧ declared = [(.ofName .debug "$link", "var(--paint-c079918d, red)")] ∧
      ∀ d ∈ declared, p.meaning painting d.2 = .ok "red".toList := by
  have hrun : ((scan painting tinted .none).resolve painting >>= fun p => (p.emit painting .inPlace).map fun out =>
      (out.sheet.print, out.log.declarations,
        decide (∀ d ∈ settingsAll .top tinted.nodes, (p.emitter painting).Rewritable
          ((p.emitter painting).isColorProperty d.property) (Value.stripPriority d.value)),
        decide (∀ v ∈ p.table.records, (p.emitter painting).Rewritable false (Value.stripPriority v.raw) ∧
          v.resolved = "red"))) = .ok
        ("$link: $paint;\n:root \x7b\n  --link-7f5a413f: var(--paint-c079918d, red);\n\x7d\na \x7b border: " ++
          "1px rgb(var(--b, var(--link-7f5a413f, red)))!important \x7d",
          [(.ofName .debug "$link", "var(--paint-c079918d, red)")], true, true) := by
    decide +kernel
  obtain ⟨p, hp, hemit⟩ := bind_ok.1 hrun
  obtain ⟨out, hout, heq⟩ := map_ok.1 hemit
  simp only [Prod.mk.injEq, decide_eq_true_eq] at heq
  obtain ⟨hprint, hdeclarations, hvalues, hvariables⟩ := heq
  obtain ⟨rewritten, written, declared, left, index, note, after, hspec, -, hdeclared, hmeaning, hruntime⟩ :=
    emit_meaning painting tinted .none rfl hp hout
  refine ⟨p, out, rewritten, declared, hp, hout, hprint, hspec.rewriting, ?_, hdeclared, hdeclared ▸ hdeclarations,
    fun d hd => ?_⟩
  · have hboth := (List.forall₂_and_left _ _).2 ⟨hvalues, hmeaning⟩
    exact hboth.imp fun before after h => h.2 h.1
  · obtain ⟨v, hv, hsame⟩ := hruntime d hd
    obtain ⟨hrewritable, hred⟩ := hvariables v (Table.mem_of_get? hv)
    rw [(hsame hrewritable).2 acyclic_tinted, hred]
    rfl

end Pass

/-- A theme of one size. -/
def sizes : Table :=
  .ofList [{ ident := .ofName .debug "$x", name := "$x", raw := "5px", resolved := "5px", parsed := true }]

/-- A file that imports it. -/
def sized : PassContext := ⟨{ onlyColor := false }, .scss, [sizes], .merged [sizes]⟩

/-- Directly after a hyphen, the name of `var` is read as a part of another
name. -/
theorem run_inPlace_hyphen :
    ((Sheet.parse .scss .none ".c \x7b margin: -$x \x7d").bind fun sheet =>
        (Pass.run sized .inPlace sheet .none).map (·.sheet.print)) = .ok ".c \x7b margin: -var(--x-53b5ba40, 5px) \x7d" ∧
      (((⟨.scss, .debug, [sizes], .none⟩ : Surroundings).resolveValue "-$x").run.run ⟨{}, {}⟩).1 =
        .ok ("-5px", [.ofName .debug "$x"]) ∧
      (((⟨.scss, .debug, [sizes], .none⟩ : Surroundings).resolveValue "-var(--x-53b5ba40, 5px)").run.run ⟨{}, {}⟩).1 =
        .ok ("-var(--x-53b5ba40, 5px)", []) := by
  have hparse : Sheet.parse .scss .none ".c \x7b margin: -$x \x7d" =
      .ok ⟨[.rule ".c" [.declaration "margin" "-$x" ⟨" ", ": ", " "⟩ false] ⟨"", " ", ""⟩], "", .none⟩ := by
    cbv
  refine ⟨?_, ?_, ?_⟩
  · rw [hparse]
    decide +kernel
  · decide +kernel
  · decide +kernel

end ThemeVars
