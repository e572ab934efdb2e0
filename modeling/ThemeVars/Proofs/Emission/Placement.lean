/-
Where emission writes run time declarations. `overwrite_spec`: over the value
of the first declaration of its ident in the rules of the root element, if
there is one, and nothing else is touched. `lt_insertionIndex_of_import` and
`position_lt_insertionIndex`: what is left goes into a rule after every import
and after the records of what it needs, and (`position_scan`, and for what has
been resolved `position_resolve`) these are as far down as any declaration of
their variable.
-/
import Mathlib.Data.List.Induction
import ThemeVars.Proofs.Sheet.Frame
import ThemeVars.Proofs.Variable.Declaration

namespace ThemeVars

open Node

/-! ## Writing over a declaration -/

/-- A declaration of this property as a child of a top-level rule of the root
element. -/
def Setting.declares (property : String) (s : Setting) : Bool := s.depth == .root && s.property == property

/-- The index, among all declarations, of the first of this property in the
rules of the root element. -/
def rootIndex? (property : String) (nodes : List Node) : Option Nat :=
  (settingsAll .top nodes).findIdx? (Setting.declares property)

/-- The declarations with the value of the first that declares the property
replaced, if there is one. -/
def assignFirst (property value : String) : List Setting → Option (List Setting)
  | [] => .none
  | s :: rest =>
    if s.declares property then .some ({ s with value } :: rest) else (assignFirst property value rest).map (s :: ·)

variable {property value : String}

theorem assignFirst_append (a b : List Setting) :
    assignFirst property value (a ++ b) =
      ((assignFirst property value a).map (· ++ b)).or ((assignFirst property value b).map (a ++ ·)) := by
  induction a with
  | nil => simp [assignFirst]
  | cons s a ih =>
    simp only [List.cons_append, assignFirst]
    split
    · rfl
    · rw [ih]
      cases assignFirst property value a with
      | some a' => rfl
      | none => simp [Function.comp_def]

theorem assignFirst_eq_none {l : List Setting} (h : ∀ s ∈ l, s.depth ≠ .root) : assignFirst property value l = .none := by
  induction l with
  | nil => rfl
  | cons s l ih =>
    obtain ⟨hs, hl⟩ := List.forall_mem_cons.1 h
    rw [assignFirst, ih hl, if_neg (by simp [Setting.declares, hs])]
    rfl

/-- It is the value at the index of the first that is replaced. -/
theorem assignFirst_eq (l : List Setting) :
    assignFirst property value l =
      (l.findIdx? (Setting.declares property)).map fun k => l.modify k fun s => { s with value } := by
  induction l with
  | nil => rfl
  | cons s l ih =>
    rw [assignFirst, List.findIdx?_cons]
    split
    · rfl
    · rw [ih]
      cases l.findIdx? (Setting.declares property) <;> rfl

mutual

theorem depth_inner : ∀ node : Node, ∀ s ∈ node.settings .inner, s.depth ≠ .root
  | .rule _ children _ => depth_innerAll children
  | .declaration _ _ _ _ => by simp [settings]
  | .statement _ _ _ _ _ _ => by simp [settings]
  | .group _ _ children _ _ => depth_innerAll children
  | .comment _ _ _ => by simp [settings]

theorem depth_innerAll : ∀ nodes : List Node, ∀ s ∈ settingsAll .inner nodes, s.depth ≠ .root
  | [] => by simp [settingsAll]
  | node :: rest => List.forall_mem_append.2 ⟨depth_inner node, depth_innerAll rest⟩

end

/-- The search of these nodes comes to what assigning to their declarations comes
to, and keeps their frame. -/
structure Assigns (property value : String) (depth : Depth) (nodes : List Node) (found : Option (List Node)) : Prop where
  settings : found.map (settingsAll depth) = assignFirst property value (settingsAll depth nodes)
  frame : ∀ after ∈ found, unvaluedAll after = unvaluedAll nodes

theorem Assigns.nil (depth : Depth) : Assigns property value depth [] .none := ⟨rfl, fun _ h => nomatch h⟩

/-- A node in which nothing is found is passed over. -/
theorem Assigns.cons {depth : Depth} {node : Node} {rest : List Node} {found : Option (List Node)}
    (h : Assigns property value depth rest found) (hnode : assignFirst property value (node.settings depth) = .none) :
    Assigns property value depth (node :: rest) (found.map (node :: ·)) := by
  refine ⟨?_, fun after hafter => ?_⟩
  · rw [settingsAll, assignFirst_append, hnode, ← h.settings, Option.map_none, Option.none_or]
    simp [Function.comp_def, settingsAll]
  · obtain ⟨rest', hrest, rfl⟩ := Option.map_eq_some_iff.1 hafter
    rw [unvaluedAll, unvaluedAll, h.frame rest' hrest]

/-- Replacing goes through the children of a rule of the root element. -/
theorem replaceIn_assigns (children : List Node) :
    Assigns property value .root children (replaceRootDeclaration.replaceIn property value children) := by
  induction children with
  | nil => exact .nil _
  | cons child more ih =>
    cases child with
    | declaration p v spacing semicolon =>
      rw [replaceRootDeclaration.replaceIn]
      split
      · rename_i hp
        refine ⟨?_, fun after hafter => ?_⟩
        · simp [settingsAll, settings, assignFirst, Setting.declares, hp]
        · cases hafter
          rfl
      · rename_i hp
        exact ih.cons (by simp [settings, assignFirst, Setting.declares, hp])
    | rule selector children spacing => exact ih.cons (assignFirst_eq_none (depth_innerAll children))
    | group name params children spacing afterName => exact ih.cons (assignFirst_eq_none (depth_innerAll children))
    | statement => exact ih.cons rfl
    | comment => exact ih.cons rfl

theorem depth_top {node : Node} (h : ∀ selector children spacing, node = .rule selector children spacing →
    isRootSelector selector = false) : ∀ s ∈ node.settings .top, s.depth ≠ .root := by
  cases node with
  | rule selector children spacing =>
    rw [settings, Depth.within, if_neg (by simp [h selector children spacing rfl])]
    exact depth_innerAll children
  | declaration => simp [settings]
  | statement => simp [settings]
  | group name params children => exact depth_innerAll children
  | comment => simp [settings]

/-- A rule of the root element is looked at first. -/
theorem replaceRootDeclaration_rule {selector : String} (h : isRootSelector selector = true) (children rest : List Node)
    (spacing : Spacing) :
    replaceRootDeclaration property value (.rule selector children spacing :: rest) =
      match replaceRootDeclaration.replaceIn property value children with
      | .some children => .some (.rule selector children spacing :: rest)
      | .none => (replaceRootDeclaration property value rest).map (.rule selector children spacing :: ·) := by
  rw [replaceRootDeclaration.eq_def]
  simp only [h, if_true]
  cases replaceRootDeclaration.replaceIn property value children <;> rfl

/-- Any other node is passed over. -/
theorem replaceRootDeclaration_other {node : Node} (h : ∀ selector children spacing,
    node = .rule selector children spacing → isRootSelector selector = false) (rest : List Node) :
    replaceRootDeclaration property value (node :: rest) =
      (replaceRootDeclaration property value rest).map (node :: ·) := by
  rw [replaceRootDeclaration.eq_def]
  cases node with
  | rule selector children spacing => simp [h selector children spacing rfl]
  | declaration | statement | group | comment => rfl

/-- Replacing goes through the nodes. -/
theorem replaceRootDeclaration_assigns (nodes : List Node) :
    Assigns property value .top nodes (replaceRootDeclaration property value nodes) := by
  induction nodes with
  | nil => exact .nil _
  | cons node rest ih =>
    by_cases hroot : ∃ selector children spacing, node = .rule selector children spacing ∧ isRootSelector selector = true
    · obtain ⟨selector, children, spacing, rfl, hroot⟩ := hroot
      have hin : Assigns property value .root children _ := replaceIn_assigns children
      have hdepth : settings .top (.rule selector children spacing) = settingsAll .root children := by
        rw [settings, Depth.within, if_pos hroot]
      rw [replaceRootDeclaration_rule hroot]
      cases hc : replaceRootDeclaration.replaceIn property value children with
      | none =>
        rw [hc] at hin
        exact ih.cons (hdepth ▸ hin.settings.symm)
      | some children' =>
        rw [hc] at hin
        refine ⟨?_, fun after hafter => ?_⟩
        · rw [settingsAll, assignFirst_append, hdepth, ← hin.settings]
          simp [settingsAll, settings, Depth.within, hroot]
        · cases hafter
          rw [unvaluedAll, unvaluedAll, unvalued, unvalued, hin.frame _ rfl]
    · have hother : ∀ selector children spacing, node = .rule selector children spacing → isRootSelector selector = false :=
        fun selector children spacing h => by_contra fun hs => hroot ⟨selector, children, spacing, h, by simpa using hs⟩
      rw [replaceRootDeclaration_other hother]
      exact ih.cons (assignFirst_eq_none (depth_top hother))

/-- Replacing keeps the frame, and replaces the value of the first declaration
of the property in the rules of the root element. -/
theorem replaceRootDeclaration_spec (property value : String) (nodes : List Node) :
    (replaceRootDeclaration property value nodes).map (settingsAll .top) =
        (rootIndex? property nodes).map (fun k => (settingsAll .top nodes).modify k fun s => { s with value }) ∧
      ∀ after ∈ replaceRootDeclaration property value nodes, unvaluedAll after = unvaluedAll nodes := by
  rw [rootIndex?, ← assignFirst_eq]
  exact ⟨(replaceRootDeclaration_assigns nodes).settings, (replaceRootDeclaration_assigns nodes).frame⟩

/-- The index hangs on the frame alone. -/
theorem rootIndex?_congr {a b : List Node} (h : unvaluedAll a = unvaluedAll b) (property : String) :
    rootIndex? property a = rootIndex? property b := by
  have hmap (nodes : List Node) : rootIndex? property nodes =
      ((settingsAll .top nodes).map Setting.unvalued).findIdx? (Setting.declares property) := by
    rw [List.findIdx?_map]
    rfl
  rw [hmap, hmap, settingsAll_unvalued .top h]

/-- What stands at the index. -/
theorem property_of_rootIndex? {nodes : List Node} {k : Nat} (h : rootIndex? property nodes = .some k) :
    ∃ s, (settingsAll .top nodes)[k]? = .some s ∧ s.depth = .root ∧ s.property = property := by
  obtain ⟨hk, hs, -⟩ := List.findIdx?_eq_some_iff_getElem.1 h
  simp only [Setting.declares, Bool.and_eq_true, beq_iff_eq] at hs
  exact ⟨_, List.getElem?_eq_getElem hk, hs⟩

/-- What has been made of the nodes and of the declarations, each for another
ident: the frame is kept, those are left over for whose ident there is no
declaration, the value of the first declaration of each of the other idents is
the one that it was to get, and no other value is another. -/
structure Overwritten (nodes : List Node) (declared : List (Ident × String)) (after : List Node)
    (left : List (Ident × String)) : Prop where
  frame : unvaluedAll after = unvaluedAll nodes
  left : left = declared.filter fun d => (rootIndex? d.1.text nodes).isNone
  values : ∀ d ∈ declared, ∀ k, rootIndex? d.1.text nodes = .some k →
    ((settingsAll .top after)[k]?).map Setting.value = .some d.2
  others : ∀ k, (∀ d ∈ declared, rootIndex? d.1.text nodes ≠ .some k) →
    (settingsAll .top after)[k]? = (settingsAll .top nodes)[k]?

theorem overwrite_spec {declared : List (Ident × String)} (hd : (declared.map Prod.fst).Nodup) (nodes : List Node) :
    Overwritten nodes declared (Emitter.overwrite nodes declared).1 (Emitter.overwrite nodes declared).2 := by
  induction declared generalizing nodes with
  | nil => exact ⟨rfl, rfl, fun _ h => (nomatch h), fun _ _ => rfl⟩
  | cons d rest ih =>
    obtain ⟨ident, value⟩ := d
    obtain ⟨hident, hrest⟩ := List.nodup_cons.1 hd
    obtain ⟨hsettings, hframe⟩ := replaceRootDeclaration_spec ident.text value nodes
    rw [Emitter.overwrite]
    cases hr : replaceRootDeclaration ident.text value nodes with
    | none =>
      have hnone : rootIndex? ident.text nodes = .none := by
        rw [hr] at hsettings
        simpa using hsettings.symm
      have h := ih hrest nodes
      refine ⟨h.frame, ?_, fun d hd k hk => ?_, fun k hk => h.others k fun d hd => hk d (List.mem_cons_of_mem _ hd)⟩
      · rw [List.filter_cons_of_pos (by simp [hnone]), ← h.left]
      · rcases List.mem_cons.1 hd with rfl | hd
        · rw [hnone] at hk
          cases hk
        · exact h.values d hd k hk
    | some nodes' =>
      obtain ⟨k, hk, hmodify⟩ : ∃ k, rootIndex? ident.text nodes = .some k ∧
          settingsAll .top nodes' = (settingsAll .top nodes).modify k fun s => { s with value } := by
        rw [hr, Option.map_some] at hsettings
        obtain ⟨k, hk, h⟩ := Option.map_eq_some_iff.1 hsettings.symm
        exact ⟨k, hk, h.symm⟩
      have hsame := rootIndex?_congr (hframe nodes' hr)
      have h := ih hrest nodes'
      -- the others are written over at other indices
      have hapart : ∀ d ∈ rest, rootIndex? d.1.text nodes' ≠ .some k := by
        intro d hd hdk
        rw [hsame] at hdk
        obtain ⟨s, hs, -, hp⟩ := property_of_rootIndex? hk
        obtain ⟨t, ht, -, hq⟩ := property_of_rootIndex? hdk
        cases hs.symm.trans ht
        refine hident (List.mem_map.2 ⟨d, hd, ?_⟩)
        obtain ⟨⟨text⟩, v⟩ := d
        obtain ⟨text'⟩ := ident
        exact congrArg Ident.mk (hq.symm.trans hp)
      refine ⟨h.frame.trans (hframe nodes' hr), ?_, fun d hd j hj => ?_, fun j hj => ?_⟩
      · rw [List.filter_cons_of_neg (by simp [hk]), h.left]
        exact List.filter_congr fun d _ => by rw [hsame]
      · rcases List.mem_cons.1 hd with rfl | hd
        · cases hk.symm.trans hj
          obtain ⟨s, hs, -⟩ := property_of_rootIndex? hk
          rw [h.others k hapart, hmodify, List.getElem?_modify_eq, hs]
          rfl
        · exact h.values d hd j (by rw [hsame, hj])
      · have hne : k ≠ j := fun he => hj _ List.mem_cons_self (he ▸ hk)
        rw [h.others j fun d hd => by rw [hsame]; exact hj d (List.mem_cons_of_mem _ hd), hmodify,
          List.getElem?_modify_ne _ _ hne]

/-! ## A place for a rule -/

/-- An at-rule that brings in another style sheet. -/
def Node.isImport : Node → Bool
  | .statement name _ _ _ _ _ => isImportName name
  | .group name _ _ _ _ => isImportName name
  | _ => false

/-- A member is not behind the last of its kind. -/
theorem lt_length_dropWhile_reverse {α : Type} {f : α → Bool} {l : List α} {j : Nat} {a : α} (hj : l[j]? = .some a)
    (ha : f a = true) : j < (l.reverse.dropWhile fun b => !f b).length := by
  induction l using List.reverseRecOn with
  | nil => cases hj
  | append_singleton l b ih =>
    rw [List.reverse_append, List.reverse_singleton, List.singleton_append, List.dropWhile_cons]
    split
    · rename_i hb
      refine ih ?_
      rw [List.getElem?_append] at hj
      split at hj
      · exact hj
      · have hab : a = b := by simpa using List.mem_of_getElem? hj
        simp [← hab, ha] at hb
    · obtain ⟨hlt, -⟩ := List.getElem?_eq_some_iff.1 hj
      simpa using hlt

theorem le_foldl_max (l : List Nat) (n : Nat) : n ≤ l.foldl max n ∧ ∀ m ∈ l, m ≤ l.foldl max n := by
  induction l generalizing n with
  | nil => exact ⟨Nat.le_refl n, fun _ h => nomatch h⟩
  | cons m l ih =>
    obtain ⟨hn, hl⟩ := ih (max n m)
    exact ⟨Nat.le_trans (Nat.le_max_left n m) hn, List.forall_mem_cons.2 ⟨Nat.le_trans (Nat.le_max_right n m) hn, hl⟩⟩

theorem lt_insertionIndex_of_import (sheet : Sheet) (table : Table) (anchors : List Ident) {j : Nat} {node : Node}
    (hj : sheet.nodes[j]? = .some node) (h : node.isImport = true) : j < insertionIndex sheet table anchors := by
  have hlast : j < (sheet.nodes.reverse.dropWhile fun n => !n.isImport).length := lt_length_dropWhile_reverse hj h
  exact Nat.lt_of_lt_of_le hlast (le_foldl_max _ _).1

theorem position_lt_insertionIndex {table : Table} {anchors : List Ident} {ident : Ident} {v : Variable}
    (h : ident ∈ anchors) (hv : table.get? ident = .some v) (sheet : Sheet) :
    v.position < insertionIndex sheet table anchors := by
  refine (le_foldl_max _ _).2 _ (List.mem_map.2 ⟨v, List.mem_filterMap.2 ⟨ident, h, hv⟩, rfl⟩)

/-! ## Where variables are declared -/

/-- The top-level node declares a variable with this ident. -/
def Node.Declares (dialect : Dialect) (mode : IdentMode) (ident : Ident) (node : Node) : Prop :=
  ∃ d ∈ (node.declared dialect).2, Ident.ofName mode d.1 = ident

namespace Sheet

variable {dialect : Dialect} {mode : IdentMode} {file : Option Path}

/-- Variables come in the order of their positions. -/
theorem positions_variablesFrom (nodes : List Node) (position : Nat) :
    (∀ v ∈ variablesFrom dialect mode file position nodes, position ≤ v.position) ∧
      (variablesFrom dialect mode file position nodes).Pairwise fun v w => v.position ≤ w.position := by
  induction nodes generalizing position with
  | nil => exact ⟨fun _ h => (nomatch h), List.Pairwise.nil⟩
  | cons node rest ih =>
    obtain ⟨hle, hpairs⟩ := ih (position + 1)
    rw [variablesFrom]
    refine ⟨List.forall_mem_append.2 ⟨fun v hv => ?_, fun v hv => ?_⟩, List.pairwise_append.2
      ⟨List.pairwise_of_forall_mem_list fun v hv w hw => ?_, hpairs, fun v hv w hw => ?_⟩⟩
    · obtain ⟨_, -, rfl⟩ := List.mem_map.1 hv
      exact Nat.le_refl position
    · exact Nat.le_of_succ_le (hle v hv)
    · obtain ⟨_, -, rfl⟩ := List.mem_map.1 hv
      obtain ⟨_, -, rfl⟩ := List.mem_map.1 hw
      exact Nat.le_refl position
    · obtain ⟨_, -, rfl⟩ := List.mem_map.1 hv
      exact Nat.le_of_succ_le (hle w hw)

/-- A variable that a node declares is among those of the nodes, with the
node's index. -/
theorem mem_variablesFrom (file : Option Path) (position : Nat) {nodes : List Node} {j : Nat} {node : Node} {ident : Ident}
    (hj : nodes[j]? = .some node) (h : node.Declares dialect mode ident) :
    ∃ v ∈ variablesFrom dialect mode file position nodes, v.ident = ident ∧ v.position = position + j := by
  induction nodes generalizing position j with
  | nil => cases hj
  | cons first rest ih =>
    rw [variablesFrom]
    cases j with
    | zero =>
      cases hj
      obtain ⟨d, hd, rfl⟩ := h
      exact ⟨_, List.mem_append_left _ (List.mem_map.2 ⟨d, hd, rfl⟩), rfl, rfl⟩
    | succ j =>
      obtain ⟨v, hv, hi, hp⟩ := ih (position + 1) hj
      exact ⟨v, List.mem_append_right _ hv, hi, by omega⟩

end Sheet

/-- Of variables in the order of their positions, a table keeps one that is not
before any other with its ident. -/
theorem Table.position_foldl_insert {vs : List Variable} (hvs : vs.Pairwise fun v w => v.position ≤ w.position)
    (t : Table) {v : Variable} (hv : v ∈ vs) :
    ∃ w, (vs.foldl insert t).get? v.ident = .some w ∧ v.position ≤ w.position := by
  induction vs generalizing t v with
  | nil => cases hv
  | cons u vs ih =>
    obtain ⟨hu, htail⟩ := List.pairwise_cons.1 hvs
    rcases List.mem_cons.1 hv with rfl | hv
    · by_cases hlater : ∃ w ∈ vs, w.ident = v.ident
      · obtain ⟨w, hw, hi⟩ := hlater
        obtain ⟨x, hx, hp⟩ := ih htail (t.insert v) hw
        exact ⟨x, by rw [← hi]; exact hx, Nat.le_trans (hu w hw) hp⟩
      · have hkept : ∀ (ws : List Variable) (u : Table), (∀ w ∈ ws, w.ident ≠ v.ident) → u.get? v.ident = .some v →
            (ws.foldl insert u).get? v.ident = .some v := by
          intro ws
          induction ws with
          | nil => exact fun _ _ h => h
          | cons w ws ih =>
            intro u hws hget
            obtain ⟨hw, hws⟩ := List.forall_mem_cons.1 hws
            refine ih _ hws ?_
            rw [get?_insert, if_neg hw]
            exact hget
        refine ⟨v, hkept vs _ (fun w hw hi => hlater ⟨w, hw, hi⟩) ?_, Nat.le_refl _⟩
        rw [get?_insert, if_pos rfl]
    · exact ih htail (t.insert u) hv

/-- The record of a variable has an index that is not before any node that
declares it. -/
theorem Sheet.position_scan (file : Option Path) {sheet : Sheet} {dialect : Dialect} {mode : IdentMode} {j : Nat}
    {node : Node} {ident : Ident} (hj : sheet.nodes[j]? = .some node) (h : node.Declares dialect mode ident) :
    ∃ v, (sheet.scan file dialect mode).get? ident = .some v ∧ j ≤ v.position := by
  obtain ⟨v, hv, rfl, hp⟩ := mem_variablesFrom file 0 hj h
  obtain ⟨w, hw, hle⟩ := Table.position_foldl_insert (positions_variablesFrom sheet.nodes 0).2 {} hv
  exact ⟨w, hw, by omega⟩

/-- Resolution keeps that index. -/
theorem Pass.position_resolve {context : PassContext} {sheet : Sheet} {file : Option Path} {p : Pass}
    (hp : (scan context sheet file).resolve context = .ok p) {j : Nat} {node : Node} {ident : Ident}
    (hj : sheet.nodes[j]? = .some node) (h : node.Declares context.dialect context.settings.identMode ident) :
    ∃ v, p.table.get? ident = .some v ∧ j ≤ v.position := by
  obtain ⟨v, hv, hle⟩ := Sheet.position_scan file hj h
  have hundone : p.table.undone.get? ident = .some v.undone := by
    rw [(resolve_undone hp).1, Table.get?_undone]
    exact congrArg (Option.map Variable.undone) hv
  rw [Table.get?_undone, Option.map_eq_some_iff] at hundone
  obtain ⟨w, hw, hsame⟩ := hundone
  have hposition : w.undone.position = v.undone.position := congrArg Variable.position hsame
  exact ⟨w, hw, Nat.le_trans hle (Nat.le_of_eq hposition.symm)⟩

end ThemeVars
