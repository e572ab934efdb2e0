/-
The run time declarations of reference variables. `declarationsWithin` is the
loop that collects them as it goes by what is in use and by nothing else, and
`declarationsWithin_eq`: it ends. `runtimeDeclarations_spec`: it declares what
is in use and nothing else, each variable once.
-/
import ThemeVars.Proofs.Emission.Uses

namespace ThemeVars

open Emission (noted)
open Node (settingsAll unvaluedAll)

/-- The run time declarations that are told of. -/
def Log.declarations (log : Log) : List (Ident × String) :=
  (log.ofKind .inlinePropertyVariable).map fun m => (m.ident, m.value)

theorem Log.declarations_push {log : Log} {v : Variable} (engine value : String)
    (h : ∀ d ∈ log.declarations, d.1 ≠ v.ident) :
    (log.push (.ofVariable v .inlinePropertyVariable engine value)).declarations =
      log.declarations ++ [(v.ident, value)] :=
  told_push_new (m := .ofVariable v .inlinePropertyVariable engine value) h

namespace Emitter

variable {e : Emitter} {nodes : List Node}

/-! ## What is in use -/

/-- The reference variables that the declarations bring into use, in the order
of the text. -/
def usesOf (e : Emitter) (nodes : List Node) : List Ident := (settingsAll .top nodes).flatMap e.usesIn

/-- The reference variables that the variable brings into use at run time. -/
def usesThrough (e : Emitter) (ident : Ident) : List Ident :=
  match e.table.get? ident with
  | .none => []
  | .some v =>
    match e.reading v.raw with
    | .ok value => e.uses false value
    | .error _ => []

/-- A reference to the variable is replaced, in a declaration or in the run time
value of a variable that is in use. -/
inductive InUse (e : Emitter) (nodes : List Node) : Ident → Prop
  | written {i} : i ∈ e.usesOf nodes → InUse e nodes i
  | through {i j} : InUse e nodes j → i ∈ e.usesThrough j → InUse e nodes i

theorem mem_reference_of_mem_uses {cp : Bool} {v : Value} {i : Ident} (h : i ∈ e.uses cp v) :
    i ∈ e.classification.reference ∧ ∃ r : Reference, i = e.target r := by
  obtain ⟨r, hr, rfl⟩ := List.mem_map.1 h
  have hlocal := (List.mem_filter.1 hr).2
  simp only [isLocals, Bool.and_eq_true, List.contains_iff_mem] at hlocal
  exact ⟨hlocal.2, r, rfl⟩

theorem mem_reference_of_mem_usesThrough {i j : Ident} (h : i ∈ e.usesThrough j) :
    i ∈ e.classification.reference ∧ ∃ r : Reference, i = e.target r := by
  unfold usesThrough at h
  split at h
  · cases h
  · split at h
    · exact mem_reference_of_mem_uses h
    · cases h

theorem mem_reference_of_mem_usesOf {i : Ident} (h : i ∈ e.usesOf nodes) :
    i ∈ e.classification.reference ∧ ∃ r : Reference, i = e.target r := by
  obtain ⟨d, -, hd⟩ := List.mem_flatMap.1 h
  unfold usesIn at hd
  split at hd
  · cases hd
  · split at hd
    · exact mem_reference_of_mem_uses hd
    · cases hd

theorem InUse.mem_reference {i : Ident} (h : e.InUse nodes i) :
    i ∈ e.classification.reference ∧ ∃ r : Reference, i = e.target r := by
  cases h with
  | written h => exact mem_reference_of_mem_usesOf h
  | through _ h => exact mem_reference_of_mem_usesThrough h

/-! ## The loop -/

/-- The run time value of a variable, which is told of. -/
def declaration (e : Emitter) (v : Variable) : Emitting String := do
  let segments ← (Value.parse e.context.dialect.sigil? (Value.stripPriority v.raw) : Except Error Value)
  let value ← segments.rewrite (fun r _ => e.replacement? false r) false
  e.tell v .inlinePropertyVariable value
  return value

/-- The text is the run time value of the variable: its value as written, the
references in it replaced. -/
def HasValue (e : Emitter) (ident : Ident) (value : String) : Prop :=
  ∃ v, e.table.get? ident = .some v ∧ ∃ s t, (e.declaration v).run s = .ok (value, t)

/-- The run time declarations of the variables in use, from the `done`-th on,
as long as there are any; what is not done within so many turns is left to
`beyond`. -/
def declarationsWithin (e : Emitter) (beyond : Nat → Emitting (List (Ident × String))) :
    Nat → Nat → Emitting (List (Ident × String))
  | turns, done => do
    match (← get).used[done]? with
    | .none => return []
    | .some ident =>
      match turns with
      | 0 => beyond done
      | turns + 1 =>
        match e.table.get? ident with
        | .none => e.declarationsWithin beyond turns (done + 1)
        | .some v =>
          let value ← e.declaration v
          let rest ← e.declarationsWithin beyond turns (done + 1)
          return (ident, value) :: rest

theorem runtimeDeclarations_eq (waiting : List Ident) (done : Nat) :
    e.runtimeDeclarations waiting done = do
      match (← get).used[done]? with
      | .none => return []
      | .some ident =>
        if ident ∈ waiting then
          match e.table.get? ident with
          | .none => e.runtimeDeclarations (waiting.erase ident) (done + 1)
          | .some v =>
            let value ← e.declaration v
            let rest ← e.runtimeDeclarations (waiting.erase ident) (done + 1)
            return (ident, value) :: rest
        else return [] := by
  rw [runtimeDeclarations]
  refine bind_congr fun s => ?_
  rcases s.used[done]? with _ | ident
  · rfl
  · simp only [declaration, bind_assoc, pure_bind]
    rfl

/-- A declaration brings into use what the run time value refers to, which its
text then mentions, and it is told of last if there is none of the variable yet. -/
theorem declaration_run (he : e.Backed) {ident : Ident} {v : Variable} (hv : e.table.get? ident = .some v)
    {s t : Emission} {value : String} (h : (e.declaration v).run s = .ok (value, t)) :
    t.used = (e.usesThrough ident).foldl noted s.used ∧
      (Value.IsWhole (Value.stripPriority v.raw) → ∀ i ∈ e.usesThrough ident, e.Mentions i value) ∧
      ((∀ d ∈ s.log.declarations, d.1 ≠ ident) → t.log.declarations = s.log.declarations ++ [(ident, value)]) := by
  have hvalue : Brings (do
      let segments ← (e.reading v.raw : Except Error Value)
      segments.rewrite (fun r _ => e.replacement? false r) false : Emitting String) (e.usesThrough ident)
      fun text => Value.IsWhole (Value.stripPriority v.raw) → ∀ i ∈ e.usesThrough ident, e.Mentions i text := by
    refine (brings_lift (e.reading v.raw)).andThen fun segments hsegments => ?_
    rw [usesThrough, hv]
    simp only [hsegments]
    exact (brings_rewrite he false false segments).mono fun _ h hwhole => h.2 (Value.enclosed_parse hsegments hwhole)
  have hassoc : e.declaration v = (do
      let segments ← (e.reading v.raw : Except Error Value)
      segments.rewrite (fun r _ => e.replacement? false r) false : Emitting String) >>= fun value => do
        e.tell v .inlinePropertyVariable value
        return value := by
    rw [bind_assoc]
    rfl
  rw [hassoc, StateT.run_bind] at h
  obtain ⟨⟨value', u⟩, hu, htell⟩ := bind_ok.1 h
  obtain ⟨hmentions, hused, hlog⟩ := hvalue s value' u hu
  cases htell
  refine ⟨hused, hmentions, fun hnew => ?_⟩
  have hsame : u.log.declarations = s.log.declarations := by
    rw [Log.declarations, hlog, Log.declarations]
  have hfresh : ∀ d ∈ u.log.declarations, d.1 ≠ v.ident := by
    rw [hsame, Table.ident_of_get? hv]
    exact hnew
  rw [← Table.ident_of_get? hv, ← hsame]
  exact Log.declarations_push e.engine value' hfresh

/-- In the loop: the variables in use are distinct reference variables, and
those that are not declared yet are waiting. -/
structure Pending (e : Emitter) (s : Emission) (waiting : List Ident) (done : Nat) : Prop where
  nodup : s.used.Nodup
  reference : ∀ i ∈ s.used, i ∈ e.classification.reference
  waiting : ∀ i ∈ e.classification.reference, i ∉ s.used.take done → i ∈ waiting

variable {s t : Emission} {waiting : List Ident} {done : Nat} {ident : Ident}

theorem take_foldl_noted (hi : s.used[done]? = .some ident) (ht : t.used = (e.usesThrough ident).foldl noted s.used) :
    t.used.take (done + 1) = s.used.take done ++ [ident] ∧ t.used[done]? = .some ident := by
  obtain ⟨more, hmore⟩ := Emission.prefix_foldl_noted s.used (e.usesThrough ident)
  obtain ⟨hlt, hget⟩ := List.getElem?_eq_some_iff.1 hi
  rw [ht, ← hmore]
  refine ⟨?_, by rw [List.getElem?_append_left hlt, hi]⟩
  rw [List.take_append_of_le_length hlt, List.take_add_one, hi]
  rfl

/-- The next variable in use is not declared yet. -/
theorem Pending.not_mem_take (h : e.Pending s waiting done) (hi : s.used[done]? = .some ident) :
    ident ∉ s.used.take done := by
  obtain ⟨hlt, hget⟩ := List.getElem?_eq_some_iff.1 hi
  intro hmem
  obtain ⟨k, hk, hkget⟩ := List.getElem_of_mem hmem
  rw [List.getElem_take] at hkget
  have hk' : k < done := by
    rw [List.length_take] at hk
    omega
  have heq := (h.nodup.getElem_inj_iff).1 (hkget.trans hget.symm)
  omega

theorem Pending.mem_waiting (h : e.Pending s waiting done) (hi : s.used[done]? = .some ident) : ident ∈ waiting :=
  h.waiting ident (h.reference ident (List.mem_of_getElem? hi)) (h.not_mem_take hi)

/-- One turn of the loop keeps what is known in it. -/
theorem Pending.next (h : e.Pending s waiting done) (hi : s.used[done]? = .some ident)
    (ht : t.used = (e.usesThrough ident).foldl noted s.used) : e.Pending t (waiting.erase ident) (done + 1) := by
  refine ⟨ht ▸ Emission.nodup_foldl_noted h.nodup _, fun i hmem => ?_, fun i hmem hnot => ?_⟩
  · rw [ht, Emission.mem_foldl_noted] at hmem
    exact hmem.elim (h.reference i) fun hi => (mem_reference_of_mem_usesThrough hi).1
  · rw [(take_foldl_noted hi ht).1, List.mem_append, List.mem_singleton, not_or] at hnot
    exact (List.mem_erase_of_ne hnot.2).2 (h.waiting i hmem hnot.1)

/-- The variables in use are no more than there are reference variables. -/
theorem Pending.length_le (h : e.Pending s waiting done) : s.used.length ≤ e.classification.reference.length :=
  (List.subperm_of_subset h.nodup h.reference).length_le

/-- The loop ends: it takes a turn for each variable in use, which are reference
variables. -/
theorem declarationsWithin_eq (he : e.Backed) (beyond : Nat → Emitting (List (Ident × String))) {turns : Nat}
    (hs : e.Pending s waiting done) (hturns : e.classification.reference.length ≤ done + turns) :
    (e.declarationsWithin beyond turns done).run s = (e.runtimeDeclarations waiting done).run s := by
  induction turns generalizing s waiting done with
  | zero =>
    have hnone : s.used[done]? = .none := List.getElem?_eq_none (hs.length_le.trans hturns)
    rw [runtimeDeclarations_eq, declarationsWithin]
    simp only [StateT.run_bind, StateT.run_get, pure_bind, hnone]
  | succ turns ih =>
    rw [runtimeDeclarations_eq, declarationsWithin]
    simp only [StateT.run_bind, StateT.run_get, pure_bind]
    rcases hi : s.used[done]? with _ | ident
    · rfl
    obtain ⟨v, hv⟩ := Table.contains_iff.1 (he ident (hs.reference ident (List.mem_of_getElem? hi)))
    simp only [if_pos (hs.mem_waiting hi), hv, StateT.run_bind]
    refine bind_congr_ok fun ⟨value, t⟩ hvalue => ?_
    rw [ih (hs.next hi (declaration_run he hv hvalue).1) (by omega)]

/-- The run time value of a variable in which no bracket is left open refers to
what the variable brings into use. -/
def MentionsThrough (e : Emitter) (ident : Ident) (value : String) : Prop :=
  ∀ v, e.table.get? ident = .some v → Value.IsWhole (Value.stripPriority v.raw) →
    ∀ i ∈ e.usesThrough ident, e.Mentions i value

/-- What the loop has done: from the `done`-th on, each variable in use has a
declaration that is told of, and no other is in use than what has to be. -/
structure Collected (e : Emitter) (s : Emission) (done : Nat) (declared : List (Ident × String)) (t : Emission) :
    Prop where
  idents : declared.map Prod.fst = t.used.drop done
  used : t.used = ((t.used.drop done).flatMap e.usesThrough).foldl noted s.used
  nodup : t.used.Nodup
  least : ∀ P : Ident → Prop, (∀ i ∈ s.used, P i) → (∀ j, P j → ∀ i ∈ e.usesThrough j, P i) → ∀ i ∈ t.used, P i
  told : t.log.declarations = s.log.declarations ++ declared
  values : ∀ d ∈ declared, e.HasValue d.1 d.2
  mentions : ∀ d ∈ declared, e.MentionsThrough d.1 d.2

/-- One turn of the loop, and the turns after it. -/
theorem Collected.cons {declared : List (Ident × String)} {value : String} {u : Emission} (hi : s.used[done]? = .some ident)
    (hvalue : e.HasValue ident value) (hmentions : e.MentionsThrough ident value) (hused : t.used = (e.usesThrough ident).foldl noted s.used)
    (htold : t.log.declarations = s.log.declarations ++ [(ident, value)]) (h : e.Collected t (done + 1) declared u) :
    e.Collected s done ((ident, value) :: declared) u := by
  have hdrop : u.used.drop done = ident :: u.used.drop (done + 1) := by
    obtain ⟨more, hmore⟩ := Emission.prefix_foldl_noted t.used ((u.used.drop (done + 1)).flatMap e.usesThrough)
    have hget : u.used[done]? = .some ident := by
      obtain ⟨hlt, -⟩ := List.getElem?_eq_some_iff.1 (take_foldl_noted hi hused).2
      rw [h.used, ← hmore, List.getElem?_append_left hlt, (take_foldl_noted hi hused).2]
    obtain ⟨hlt, hget⟩ := List.getElem?_eq_some_iff.1 hget
    rw [List.drop_eq_getElem_cons hlt, hget]
  refine ⟨?_, ?_, h.nodup, fun P hP hclosed => h.least P (fun i hmem => ?_) hclosed, ?_,
    List.forall_mem_cons.2 ⟨hvalue, h.values⟩, List.forall_mem_cons.2 ⟨hmentions, h.mentions⟩⟩
  · rw [List.map_cons, h.idents, hdrop]
  · rw [hdrop, List.flatMap_cons, List.foldl_append, ← hused]
    exact h.used
  · rw [hused, Emission.mem_foldl_noted] at hmem
    exact hmem.elim (hP i) fun hi' => hclosed ident (hP ident (List.mem_of_getElem? hi)) i hi'
  · rw [h.told, htold, List.append_assoc]
    rfl

theorem runtimeDeclarations_spec (he : e.Backed) (hs : e.Pending s waiting done)
    (htold : ∀ d ∈ s.log.declarations, d.1 ∈ s.used.take done) {declared : List (Ident × String)}
    (hrun : (e.runtimeDeclarations waiting done).run s = .ok (declared, t)) : e.Collected s done declared t := by
  induction waiting using Table.erase_induction generalizing s done declared with
  | step waiting ih =>
    rw [runtimeDeclarations_eq, StateT.run_bind, StateT.run_get, pure_bind] at hrun
    rcases hi : s.used[done]? with _ | ident
    · have hdrop : s.used.drop done = [] := List.drop_eq_nil_of_le (List.getElem?_eq_none_iff.1 hi)
      simp only [hi] at hrun
      cases hrun
      exact ⟨hdrop.symm, by rw [hdrop]; rfl, hs.nodup, fun P hP _ => hP, (List.append_nil _).symm, fun _ h => (nomatch h),
        fun _ h => nomatch h⟩
    · obtain ⟨v, hv⟩ := Table.contains_iff.1 (he ident (hs.reference ident (List.mem_of_getElem? hi)))
      have hwaits := hs.mem_waiting hi
      simp only [hi, if_pos hwaits, hv, StateT.run_bind] at hrun
      obtain ⟨⟨value, u⟩, hvalue, hrun⟩ := bind_ok.1 hrun
      obtain ⟨⟨rest, u'⟩, hrest, hret⟩ := bind_ok.1 hrun
      cases hret
      obtain ⟨hused, hmentions, hlog⟩ := declaration_run he hv hvalue
      have hu := hlog fun d hd he => hs.not_mem_take hi (he ▸ htold d hd)
      refine .cons hi ⟨v, hv, s, u, hvalue⟩ (fun w hw => Option.some.inj (hv.symm.trans hw) ▸ hmentions) hused hu (ih ident hwaits (hs.next hi hused) (fun d hd => ?_) hrest)
      rw [hu, List.mem_append, List.mem_singleton] at hd
      rw [(take_foldl_noted hi hused).1, List.mem_append, List.mem_singleton]
      exact hd.imp (htold d) (congrArg Prod.fst)

/-- After the references of the sheet, the loop starts with what the sheet brings
into use. -/
theorem pending_start (hs : s.used = (e.usesOf nodes).foldl noted []) : e.Pending s e.classification.reference 0 := by
  refine ⟨hs ▸ Emission.nodup_foldl_noted List.nodup_nil _, fun i hi => ?_, fun i hi _ => hi⟩
  rw [hs, Emission.mem_foldl_noted] at hi
  exact (mem_reference_of_mem_usesOf (hi.resolve_left List.not_mem_nil)).1

/-- Then it ends with those that are in use. -/
theorem Collected.inUse {declared : List (Ident × String)} (h : e.Collected s 0 declared t)
    (hs : s.used = (e.usesOf nodes).foldl noted []) (i : Ident) : i ∈ t.used ↔ e.InUse nodes i := by
  have hused := h.used
  rw [List.drop_zero, hs] at hused
  constructor
  · refine h.least (e.InUse nodes) (fun i hi => ?_) (fun j hj i hi => .through hj hi) i
    rw [hs, Emission.mem_foldl_noted] at hi
    exact .written (hi.resolve_left List.not_mem_nil)
  · intro hi
    induction hi with
    | written hi =>
      rw [hused, Emission.mem_foldl_noted, Emission.mem_foldl_noted]
      exact .inl (.inr hi)
    | through _ hi ih =>
      rw [hused, Emission.mem_foldl_noted]
      exact .inr (List.mem_flatMap.2 ⟨_, ih, hi⟩)

/-- They are in the order of their first uses. -/
theorem Collected.order {declared : List (Ident × String)} (h : e.Collected s 0 declared t)
    (hs : s.used = (e.usesOf nodes).foldl noted []) :
    t.used = (e.usesOf nodes ++ t.used.flatMap e.usesThrough).eraseDups := by
  have hused := h.used
  have hfold := Emission.foldl_noted [] (e.usesOf nodes)
  rw [List.eraseDups_nil, List.nil_append] at hfold
  rw [List.drop_zero, hs, hfold, Emission.foldl_noted] at hused
  exact hused

end Emitter

end ThemeVars
