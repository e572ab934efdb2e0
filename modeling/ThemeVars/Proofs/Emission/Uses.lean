/-
The reference variables that emission brings into use. `uses` reads them off a
value: those of the references that are replaced and are not the theme's.
`Brings` says of a step of emission what it adds to the variables in use, and
that it tells of no run time declaration; `brings_rewriteNodes` says so of a
sheet, and of its values which are left alone and which variables they mention
(`Mentions`).
-/
import ThemeVars.Emission
import ThemeVars.Proofs.Message
import ThemeVars.Proofs.Sheet.Frame
import ThemeVars.Proofs.Value.Priority
import ThemeVars.Proofs.Value.Rewriting
import ThemeVars.Proofs.Variable.Table

namespace ThemeVars

/-! ## What is in use -/

/-- The idents in use with one more, which may be in use already. -/
def Emission.noted (used : List Ident) (ident : Ident) : List Ident :=
  if used.contains ident then used else used ++ [ident]

namespace Emission

theorem noted_of_mem {used : List Ident} {ident : Ident} (h : ident ∈ used) : noted used ident = used :=
  if_pos (List.contains_iff_mem.2 h)

theorem noted_of_not_mem {used : List Ident} {ident : Ident} (h : ident ∉ used) : noted used ident = used ++ [ident] :=
  if_neg fun hc => h (List.contains_iff_mem.1 hc)

/-- What is in use has each ident where it came first. -/
theorem foldl_noted (before idents : List Ident) :
    idents.foldl noted before.eraseDups = (before ++ idents).eraseDups := by
  induction idents generalizing before with
  | nil => rw [List.append_nil]; rfl
  | cons ident rest ih =>
    have hstep : noted before.eraseDups ident = (before ++ [ident]).eraseDups := by
      rw [List.eraseDups_append]
      by_cases h : ident ∈ before
      · rw [noted_of_mem (List.mem_eraseDups.2 h)]
        simp [List.removeAll, h]
      · rw [noted_of_not_mem fun hm => h (List.mem_eraseDups.1 hm)]
        simp [List.removeAll, h, List.eraseDups_cons]
    rw [List.foldl_cons, hstep, ih, List.append_assoc, List.singleton_append]

theorem prefix_foldl_noted (used idents : List Ident) : used <+: idents.foldl noted used := by
  induction idents generalizing used with
  | nil => exact List.prefix_rfl
  | cons ident rest ih =>
    refine List.IsPrefix.trans ?_ (ih (noted used ident))
    unfold noted
    split
    · exact List.prefix_rfl
    · exact List.prefix_append _ _

theorem mem_foldl_noted {used idents : List Ident} {i : Ident} : i ∈ idents.foldl noted used ↔ i ∈ used ∨ i ∈ idents := by
  induction idents generalizing used with
  | nil => simp
  | cons ident rest ih =>
    rw [List.foldl_cons, ih, List.mem_cons, ← or_assoc]
    refine or_congr_left ?_
    by_cases h : ident ∈ used
    · rw [noted_of_mem h]
      exact ⟨.inl, Or.rec id fun hi => hi ▸ h⟩
    · rw [noted_of_not_mem h, List.mem_append, List.mem_singleton]

theorem nodup_foldl_noted {used : List Ident} (h : used.Nodup) (idents : List Ident) : (idents.foldl noted used).Nodup := by
  induction idents generalizing used with
  | nil => exact h
  | cons ident rest ih =>
    refine ih ?_
    by_cases hi : ident ∈ used
    · rwa [noted_of_mem hi]
    · rw [noted_of_not_mem hi, ← List.concat_eq_append]
      exact h.concat hi

end Emission

open Emission (noted)

namespace Emitter

variable {α β : Type}

/-- However the computation comes out, it adds these idents to those in use,
its result is such as `post` says, and it tells of no run time declaration. -/
def Brings (x : Emitting α) (idents : List Ident) (post : α → Prop) : Prop :=
  ∀ s a s', x.run s = .ok (a, s') →
    post a ∧ s'.used = idents.foldl noted s.used ∧
      s'.log.ofKind .inlinePropertyVariable = s.log.ofKind .inlinePropertyVariable

theorem brings_pure {a : α} {post : α → Prop} (h : post a) : Brings (pure a) [] post := by
  intro s b s' hrun
  cases hrun
  exact ⟨h, rfl, rfl⟩

theorem run_lift_ok {x : Except Error α} {s t : Emission} {a : α} : (liftM x : Emitting α).run s = .ok (a, t) ↔ x = .ok a ∧ t = s := by
  cases x with
  | error e => exact ⟨fun h => (nomatch h), fun h => (nomatch h.1)⟩
  | ok b =>
    constructor
    · intro h
      cases h
      exact ⟨rfl, rfl⟩
    · rintro ⟨hb, rfl⟩
      cases hb
      rfl

theorem brings_lift (x : Except Error α) : Brings (liftM x) [] fun a => x = .ok a := by
  intro s a s' hrun
  obtain ⟨hx, rfl⟩ := run_lift_ok.1 hrun
  exact ⟨hx, rfl, rfl⟩

theorem Brings.bind {x : Emitting α} {f : α → Emitting β} {is js : List Ident} {p : α → Prop} {q : β → Prop}
    (h : Brings x is p) (hf : ∀ a, p a → Brings (f a) js q) : Brings (x >>= f) (is ++ js) q := by
  intro s b s' hrun
  rw [StateT.run_bind] at hrun
  obtain ⟨⟨a, t⟩, hx, hfa⟩ := bind_ok.1 hrun
  obtain ⟨ha, hused, hlog⟩ := h s a t hx
  obtain ⟨hb, hused', hlog'⟩ := hf a ha t b s' hfa
  exact ⟨hb, by rw [hused', hused, List.foldl_append], hlog'.trans hlog⟩

theorem Brings.mono {x : Emitting α} {is : List Ident} {p q : α → Prop} (h : Brings x is p) (hq : ∀ a, p a → q a) :
    Brings x is q := fun s a s' hrun => ⟨hq a (h s a s' hrun).1, (h s a s' hrun).2⟩

/-- A step that brings nothing, and one that follows. -/
theorem Brings.andThen {x : Emitting α} {f : α → Emitting β} {js : List Ident} {p : α → Prop} {q : β → Prop}
    (h : Brings x [] p) (hf : ∀ a, p a → Brings (f a) js q) : Brings (x >>= f) js q := h.bind hf

/-- A last step that only puts the result together. -/
theorem Brings.map {x : Emitting α} {f : α → β} {is : List Ident} {p : α → Prop} {q : β → Prop} (h : Brings x is p)
    (hf : ∀ a, p a → q (f a)) : Brings (x >>= fun a => pure (f a)) is q := by
  have hbind := h.bind fun a ha => brings_pure (hf a ha)
  rwa [List.append_nil] at hbind

variable {e : Emitter}

theorem brings_tell {v : Variable} {kind : MessageKind} {value : String} (h : kind ≠ .inlinePropertyVariable) :
    Brings (e.tell v kind value) [] fun _ => True := by
  intro s a s' hrun
  cases hrun
  exact ⟨trivial, rfl, Log.ofKind_push_other h _⟩

theorem brings_relocated (v : Variable) : Brings (e.relocated v) [] fun _ => True := by
  intro s a s' hrun
  unfold relocated at hrun
  rw [StateT.run_bind] at hrun
  obtain ⟨⟨_, _⟩, hget, hrun⟩ := bind_ok.1 hrun
  cases hget
  rw [StateT.run_bind] at hrun
  obtain ⟨⟨⟨value, memo⟩, t⟩, -, hset⟩ := bind_ok.1 hrun
  cases hset
  exact ⟨trivial, rfl, rfl⟩

theorem brings_when {c : Prop} [Decidable c] {x : Emitting Unit} {k : Unit → Emitting α} {is : List Ident} {p : α → Prop}
    (hx : Brings x [] fun _ => True) (hk : ∀ a, Brings (k a) is p) : Brings (if c then x >>= k else k ()) is p := by
  split
  · exact hx.andThen fun a _ => hk a
  · exact hk ()

theorem brings_tellContext (idents : List Ident) : Brings (e.tellContext idents) [] fun _ => True := by
  induction idents with
  | nil => exact brings_pure trivial
  | cons ident rest ih =>
    rw [tellContext]
    rcases e.table.get? ident with _ | v
    · exact ih
    · exact (brings_tell (by decide)).andThen fun _ _ => ih

theorem brings_themeValue (ident : Ident) :
    Brings (e.themeValue ident) [] fun found => found.isSome = e.context.theme.contains ident := by
  unfold themeValue
  rcases h : e.context.theme.get? ident with _ | v
  · exact brings_pure (Table.contains_eq_false.2 h).symm
  · have hcontains : e.context.theme.contains ident = true := Table.contains_iff.2 ⟨v, h⟩
    refine (brings_relocated v).andThen fun value _ => (brings_tell (by decide)).andThen fun _ _ => ?_
    refine brings_when (brings_tell (by decide)) fun _ => brings_when (brings_tell (by decide)) fun _ => ?_
    exact brings_pure hcontains.symm

theorem brings_themeLines (idents : List Ident) : Brings (e.themeLines idents) [] fun _ => True := by
  induction idents with
  | nil => exact brings_pure trivial
  | cons ident rest ih =>
    rw [themeLines]
    rcases e.context.theme.get? ident with _ | v
    · exact ih
    · exact (brings_relocated v).andThen fun _ _ => ih.map fun _ _ => trivial

/-! ## References -/

/-- What a reference refers to. -/
def target (e : Emitter) (r : Reference) : Ident := .ofName e.context.settings.identMode r.name

/-- The reference is one to a theme variable that is replaced. -/
def isThemes (e : Emitter) (colorProperty : Bool) (r : Reference) : Bool :=
  !r.name.isEmpty && (e.classifier.isCandidate (e.target r) || (colorProperty && e.classifier.isTheme (e.target r)))

/-- The reference is one to a reference variable. -/
def isLocals (e : Emitter) (r : Reference) : Bool := !r.name.isEmpty && e.classification.reference.contains (e.target r)

/-- The reference is replaced; `colorProperty` says that it stands in a property that
takes colors. -/
def isReplaced (e : Emitter) (colorProperty : Bool) (r : Reference) : Bool := e.isThemes colorProperty r || e.isLocals r

/-- The reference variables that the value brings into use. -/
def uses (e : Emitter) (colorProperty : Bool) (v : Value) : List Ident :=
  ((v.replaced (e.isReplaced colorProperty)).filter e.isLocals).map e.target

/-- Reference variables are the file's own. -/
def Backed (e : Emitter) : Prop := ∀ i ∈ e.classification.reference, e.table.contains i = true

/-- A reference variable is none of the theme's. -/
theorem Backed.isTheme (he : e.Backed) {i : Ident} (h : i ∈ e.classification.reference) : e.classifier.isTheme i = false := by
  have hc : e.classifier.context.contains i = true := he i h
  rw [Classifier.isTheme, hc]
  rfl

theorem Backed.isThemes (he : e.Backed) {r : Reference} (h : e.isLocals r = true) (colorProperty : Bool) :
    e.isThemes colorProperty r = false := by
  simp only [isLocals, Bool.and_eq_true, List.contains_iff_mem] at h
  rw [Emitter.isThemes, Classifier.isCandidate, he.isTheme h.2]
  simp

theorem contains_of_isThemes {colorProperty : Bool} {r : Reference} (h : e.isThemes colorProperty r = true) :
    e.context.theme.contains (e.target r) = true := by
  have htheme : e.classifier.isTheme (e.target r) = true := by
    simp only [isThemes, Classifier.isCandidate, Bool.and_eq_true, Bool.or_eq_true] at h
    exact h.2.elim (·.1) (·.2)
  simp only [Classifier.isTheme, Bool.and_eq_true] at htheme
  exact htheme.2

/-- What becomes of a reference goes by what it refers to. -/
theorem replacement?_eq (colorProperty : Bool) (r : Reference) :
    e.replacement? colorProperty r =
      if e.isThemes colorProperty r then do
        match ← e.themeValue (e.target r) with
        | .some (_, value) => return .some (varWithFallback (e.target r) value)
        | .none => return .none
      else if e.isLocals r then
        match e.table.get? (e.target r) with
        | .none => return .none
        | .some v => do
          modify fun s => if s.used.contains (e.target r) then s else { s with used := s.used ++ [e.target r] }
          return .some (varWithFallback (e.target r) v.resolved)
      else return .none := by
  unfold replacement? isThemes isLocals target
  cases r.name.isEmpty with
  | true => rfl
  | false => rfl

theorem brings_use (ident : Ident) :
    Brings (modify fun s => if s.used.contains ident then s else { s with used := s.used ++ [ident] } : Emitting Unit)
      [ident] fun _ => True := by
  intro s a s' hrun
  cases hrun
  simp only [List.foldl_cons, List.foldl_nil, noted]
  split
  · exact ⟨trivial, rfl, rfl⟩
  · exact ⟨trivial, rfl, rfl⟩

/-- The text refers to the variable, whose value of now is the fallback. -/
def Mentions (e : Emitter) (ident : Ident) (text : String) : Prop :=
  ∃ v, e.table.get? ident = .some v ∧ (varWithFallback ident v.resolved).toList <:+: text.toList

theorem Mentions.of_infix {i : Ident} {a b : String} (h : e.Mentions i a) (hab : a.toList <:+: b.toList) : e.Mentions i b := by
  obtain ⟨v, hv, hinfix⟩ := h
  exact ⟨v, hv, hinfix.trans hab⟩

theorem Mentions.before {i : Ident} {a : String} (h : e.Mentions i a) (b : String) : e.Mentions i (a ++ b) :=
  h.of_infix (String.toList_append ▸ List.infix_append' [] _ _)

theorem Mentions.after {i : Ident} {b : String} (h : e.Mentions i b) (a : String) : e.Mentions i (a ++ b) :=
  h.of_infix (String.toList_append ▸ (List.suffix_append _ _).isInfix)

/-- Such a reference ends in a parenthesis, so that it is not trimmed off. -/
theorem Mentions.trimmedEnd {i : Ident} {text : String} (h : e.Mentions i text) : e.Mentions i text.trimmedEnd := by
  obtain ⟨v, hv, hinfix⟩ := h
  obtain ⟨front, hfront⟩ : ∃ front, (varWithFallback i v.resolved).toList = front ++ [')'] := by
    unfold varWithFallback
    split
    · exact ⟨("var(" ++ i.text).toList, String.toList_append⟩
    · exact ⟨("var(" ++ i.text ++ ", " ++ v.resolved).toList, String.toList_append⟩
  rw [hfront] at hinfix
  refine ⟨v, hv, ?_⟩
  rw [hfront, String.trimmedEnd, String.toList_ofList]
  exact Text.infix_trimEnd rfl hinfix

theorem brings_replacement? (he : e.Backed) (colorProperty : Bool) (r : Reference) :
    Brings (e.replacement? colorProperty r) (if e.isLocals r then [e.target r] else [])
      fun new => new.isSome = e.isReplaced colorProperty r ∧
        (e.isLocals r = true → ∃ text, new = .some text ∧ e.Mentions (e.target r) text) := by
  rw [replacement?_eq, isReplaced]
  cases hlocal : e.isLocals r with
  | true =>
    have hmem := hlocal
    simp only [isLocals, Bool.and_eq_true, List.contains_iff_mem] at hmem
    obtain ⟨v, hv⟩ := Table.contains_iff.1 (he _ hmem.2)
    rw [he.isThemes hlocal, if_neg Bool.false_ne_true, if_pos rfl, hv]
    exact (brings_use _).map fun _ _ => ⟨rfl, fun _ => ⟨_, rfl, v, hv, List.infix_rfl⟩⟩
  | false =>
    cases htheme : e.isThemes colorProperty r with
    | true =>
      refine (brings_themeValue (e.target r)).andThen fun found hfound => ?_
      rw [contains_of_isThemes htheme] at hfound
      cases found with
      | none => cases hfound
      | some _ => exact brings_pure ⟨rfl, nofun⟩
    | false => exact brings_pure ⟨rfl, nofun⟩

/-! ## Values -/

theorem uses_reference (colorProperty : Bool) (r : Reference) (rest : Value) :
    e.uses colorProperty (.reference r rest) =
      (if e.isLocals r then [e.target r] else []) ++ e.uses colorProperty rest := by
  simp only [uses, Value.replaced, List.filter_append, List.map_append, isReplaced]
  rcases Bool.eq_false_or_eq_true (e.isThemes colorProperty r) with ht | ht <;>
    rcases Bool.eq_false_or_eq_true (e.isLocals r) with hl | hl <;> simp [ht, hl]

theorem uses_guarded (colorProperty : Bool) (r : Reference) (fallback rest : Value) :
    e.uses colorProperty (.guarded r fallback rest) =
      (if e.isLocals r then [e.target r] else []) ++
        ((if e.isReplaced colorProperty r then [] else e.uses colorProperty fallback) ++ e.uses colorProperty rest) := by
  simp only [uses, Value.replaced, List.filter_append, List.map_append, isReplaced]
  rcases Bool.eq_false_or_eq_true (e.isThemes colorProperty r) with ht | ht <;>
    rcases Bool.eq_false_or_eq_true (e.isLocals r) with hl | hl <;> simp [ht, hl]

/-- What a reference is replaced by mentions the variable that this brings into
use. -/
theorem mentions_getD {r : Reference} {new : Option String}
    (h : e.isLocals r = true → ∃ text, new = .some text ∧ e.Mentions (e.target r) text) {i : Ident}
    (hi : i ∈ if e.isLocals r then [e.target r] else []) : e.Mentions i (new.getD r.raw) := by
  split at hi
  · rename_i hlocal
    obtain ⟨text, rfl, htext⟩ := h hlocal
    exact List.mem_singleton.1 hi ▸ htext
  · cases hi

/-- Rewriting a value brings its uses, and leaves the value alone if none of
its references is replaced. What it brings into use is mentioned in the text. -/
theorem brings_rewrite (he : e.Backed) (colorProperty inside : Bool) (v : Value) :
    Brings (v.rewrite (fun r _ => e.replacement? colorProperty r) inside) (e.uses colorProperty v)
      fun text => ((∀ r ∈ v.references, e.isReplaced colorProperty r = false) → text = v.verbatim) ∧
        (v.Enclosed → ∀ i ∈ e.uses colorProperty v, e.Mentions i text) := by
  induction v generalizing inside with
  | done => exact brings_pure ⟨fun _ => rfl, fun _ _ hi => nomatch hi⟩
  | text x rest ih =>
    refine (ih inside).map fun text h => ⟨fun hv => by rw [h.1 hv, Value.verbatim], fun hen i hi => ?_⟩
    exact (h.2 hen i hi).after x
  | interpolation inner rest ihi ihr =>
    have huses : e.uses colorProperty (.interpolation inner rest) =
        e.uses colorProperty inner ++ e.uses colorProperty rest := by
      simp only [uses, Value.replaced, List.filter_append, List.map_append]
    rw [huses]
    refine (ihi true).bind fun a ha => (ihr inside).map fun b hb => ⟨fun hv => ?_, fun hen i hi => ?_⟩
    · obtain ⟨hi, hr⟩ := List.forall_mem_append.1 hv
      rw [ha.1 hi, hb.1 hr, Value.verbatim]
    · rcases List.mem_append.1 hi with hi | hi
      · exact (((ha.2 hen.1 i hi).after _).before _).before b
      · exact (hb.2 hen.2 i hi).after _
  | reference r rest ih =>
    rw [uses_reference]
    refine (brings_replacement? he colorProperty r).bind fun new hnew => (ih inside).map fun b hb =>
      ⟨fun hv => ?_, fun hen i hi => ?_⟩
    · obtain ⟨hr, hrest⟩ := List.forall_mem_cons.1 hv
      obtain ⟨hnone, -⟩ := hnew
      rw [hr, Option.isSome_eq_false_iff, Option.isNone_iff_eq_none] at hnone
      rw [hnone, hb.1 hrest, Value.verbatim, Option.getD_none]
    · rcases List.mem_append.1 hi with hi | hi
      · exact (mentions_getD hnew.2 hi).before b
      · exact (hb.2 hen i hi).after _
  | guarded r fallback rest ihf ihr =>
    rw [uses_guarded]
    refine (brings_replacement? he colorProperty r).bind fun new hnew => ?_
    obtain ⟨hnew, hmentions⟩ := hnew
    cases new with
    | some text =>
      rw [← hnew, Option.isSome_some, if_pos rfl, List.nil_append]
      refine (ihr inside).map fun b hb => ⟨fun hv => ?_, fun hen i hi => ?_⟩
      · rw [(List.forall_mem_cons.1 hv).1] at hnew
        cases hnew
      · rcases List.mem_append.1 hi with hi | hi
        · exact (mentions_getD hmentions hi).before b
        · exact (hb.2 hen.2.2 i hi).after text
    | none =>
      rw [← hnew, Option.isSome_none, if_neg Bool.false_ne_true]
      refine (ihf inside).bind fun a ha => (ihr inside).map fun b hb => ⟨fun hv => ?_, fun hen i hi => ?_⟩
      · obtain ⟨hf, hrest⟩ := List.forall_mem_append.1 (List.forall_mem_cons.1 hv).2
        rw [ha.1 hf, hb.1 hrest, beq_self_eq_true, if_pos rfl, Value.verbatim]
      · rcases List.mem_append.1 hi with hi | hi
        · -- a reference variable is replaced
          split at hi
          · obtain ⟨_, hsome, -⟩ := hmentions ‹_›
            cases hsome
          · cases hi
        rcases List.mem_append.1 hi with hi | hi
        · have hmention := ha.2 hen.2.1 i hi
          refine Mentions.before ?_ b
          split
          · -- the fallback came out as it was, and is in the text of the reference
            rename_i hsame
            rw [beq_iff_eq.1 hsame] at hmention
            exact hmention.of_infix hen.1
          · exact (hmention.trimmedEnd.after _).before _
        · exact (hb.2 hen.2.2 i hi).after _

/-- A definition of one of the dialect's own variables. -/
def isDefinition (e : Emitter) (property : String) : Bool :=
  e.context.dialect.sigil?.isSome && property.toList.head? == e.context.dialect.sigil?

/-- The property carries color, while only such properties are looked at. -/
def isColorProperty (e : Emitter) (property : String) : Bool :=
  e.context.settings.onlyColor && Color.isProperty property

/-- A value of the property, as it is read for emission. -/
def reading (e : Emitter) (value : String) : Except Error Value :=
  Value.parse e.context.dialect.sigil? (Value.stripPriority value)

/-- A reference in the value of the property is one that is replaced: it refers
to a theme variable that is a candidate or any in a property that carries
color, or to a reference variable. -/
def Qualifies (e : Emitter) (property value : String) : Prop :=
  ∃ v, e.reading value = .ok v ∧ ∃ r ∈ v.references, e.isReplaced (e.isColorProperty property) r = true

/-- The reference variables that the declaration brings into use. -/
def usesIn (e : Emitter) (d : Setting) : List Ident :=
  if e.isDefinition d.property then []
  else
    match e.reading d.value with
    | .ok v => e.uses (e.isColorProperty d.property) v
    | .error _ => []

/-- Where the value has to stay. -/
def Stays (e : Emitter) (property value : String) : Prop :=
  e.isDefinition property = true ∨ Value.IsWhole (Value.stripPriority value) ∧ ¬ e.Qualifies property value

theorem brings_rewriteValue (he : e.Backed) (depth : Depth) (property value : String) :
    Brings (e.rewriteValue property value) (e.usesIn ⟨depth, property, value⟩)
      fun after => (e.Stays property value → after = value) ∧
        (Value.IsWhole (Value.stripPriority value) → ∀ i ∈ e.usesIn ⟨depth, property, value⟩, e.Mentions i after) := by
  change Brings (if e.isDefinition property = true then pure value else (liftM (e.reading value)) >>= _) _ _
  rw [usesIn]
  split
  · exact brings_pure ⟨fun _ => rfl, fun _ _ hi => nomatch hi⟩
  rename_i hdefinition
  refine (brings_lift (e.reading value)).andThen fun v hv => ?_
  rw [hv]
  split
  · rename_i hnone
    have huses : e.uses (e.isColorProperty property) v = [] := by
      rw [uses, List.map_eq_nil_iff, List.filter_eq_nil_iff]
      intro r hr
      have hmem := (Value.mem_references_of_mem_replaced hr).1
      rw [List.isEmpty_iff.1 hnone] at hmem
      cases hmem
    change Brings _ (e.uses (e.isColorProperty property) v) _
    rw [huses]
    refine brings_pure ⟨fun _ => rfl, fun _ i hi => ?_⟩
    have hused : i ∈ e.uses (e.isColorProperty property) v := hi
    rw [huses] at hused
    cases hused
  · refine (brings_rewrite he _ false v).map fun text htext => ⟨fun hstays => ?_, fun hwhole i hi => ?_⟩
    · obtain ⟨hwhole, hno⟩ := hstays.resolve_left hdefinition
      have hkept : ∀ r ∈ v.references, e.isReplaced (e.isColorProperty property) r = false := fun r hr =>
        Bool.eq_false_iff.2 fun hq => hno ⟨v, hv, r, hr, hq⟩
      have hverbatim : text = Value.stripPriority value := (htext.1 hkept).trans (Value.verbatim_parse hv hwhole)
      rw [hverbatim]
      exact if_pos (beq_self_eq_true _)
    · have hmention := htext.2 (Value.enclosed_parse hv hwhole) i hi
      change e.Mentions i (if text == Value.stripPriority value then value else text ++ (Value.splitPriority value).2)
      split
      · -- the body came out as it was, and the value begins with it
        rename_i hsame
        rw [beq_iff_eq.1 hsame] at hmention
        refine hmention.of_infix ?_
        rw [(Value.splitPriority_toList value).1]
        exact (List.prefix_append _ _).isInfix
      · exact hmention.before _

/-! ## Sheets -/

/-- A declaration and what rewriting makes of it. -/
structure Rewritten (e : Emitter) (before after : Setting) : Prop where
  depth : after.depth = before.depth
  property : after.property = before.property
  value : e.Stays before.property before.value → after.value = before.value
  /-- A value in which no bracket is left open refers to what it brings into use. -/
  mentions : Value.IsWhole (Value.stripPriority before.value) → ∀ i ∈ e.usesIn before, e.Mentions i after.value

mutual

theorem brings_rewriteNode (he : e.Backed) (depth : Depth) : (node : Node) →
    Brings (e.rewriteNode node) ((node.settings depth).flatMap e.usesIn) fun after =>
      after.unvalued = node.unvalued ∧ List.Forall₂ e.Rewritten (node.settings depth) (after.settings depth)
  | .rule selector children spacing => by
    rw [rewriteNode]
    refine (brings_rewriteNodes he (depth.within selector) children).map fun after h => ?_
    rw [Node.unvalued, Node.unvalued, h.1]
    exact ⟨rfl, h.2⟩
  | .declaration property value spacing semicolon => by
    rw [rewriteNode, Node.settings, List.flatMap_singleton]
    refine (brings_rewriteValue he depth property value).map fun after h => ⟨rfl, ?_⟩
    exact .cons ⟨rfl, rfl, h.1, h.2⟩ .nil
  | .statement .. => by
    rw [rewriteNode]
    exact brings_pure ⟨rfl, .nil⟩
  | .group name params children spacing afterName => by
    rw [rewriteNode]
    refine (brings_rewriteNodes he .inner children).map fun after h => ?_
    rw [Node.unvalued, Node.unvalued, h.1]
    exact ⟨rfl, h.2⟩
  | .comment .. => by
    rw [rewriteNode]
    exact brings_pure ⟨rfl, .nil⟩

theorem brings_rewriteNodes (he : e.Backed) (depth : Depth) : (nodes : List Node) →
    Brings (e.rewriteNodes nodes) ((Node.settingsAll depth nodes).flatMap e.usesIn) fun after =>
      Node.unvaluedAll after = Node.unvaluedAll nodes ∧
        List.Forall₂ e.Rewritten (Node.settingsAll depth nodes) (Node.settingsAll depth after)
  | [] => by
    rw [rewriteNodes]
    exact brings_pure ⟨rfl, .nil⟩
  | node :: rest => by
    rw [rewriteNodes, Node.settingsAll, List.flatMap_append]
    refine (brings_rewriteNode he depth node).bind fun a ha => (brings_rewriteNodes he depth rest).map fun b hb => ?_
    rw [Node.unvaluedAll, Node.unvaluedAll, ha.1, hb.1]
    exact ⟨rfl, List.rel_append ha.2 hb.2⟩

end

end Emitter

end ThemeVars
