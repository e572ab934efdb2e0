/-
A sheet as a frame and the values that stand in it. `unvalued` is the frame,
`settings` are the declarations in the order of the text, and
`eq_of_unvalued`: a sheet is no more than the two. A rule that is put into a
sheet comes between a front and a back of its nodes.
-/
import Mathlib.Data.List.Basic
import Mathlib.Tactic.Common
import ThemeVars.Sheet.Basic

namespace ThemeVars

/-- How deep a declaration stands: at the top level, as a child of a top-level
rule that selects the root element, or anywhere else. -/
inductive Depth where
  | top
  | root
  | inner
deriving DecidableEq, Repr

/-- How deep the children of a rule stand. -/
def Depth.within (selector : String) : Depth → Depth
  | .top => if Node.isRootSelector selector then .root else .inner
  | _ => .inner

/-- A declaration and its depth. -/
structure Setting where
  depth : Depth
  property : String
  value : String
deriving DecidableEq, Repr

/-- The setting with nothing in the place of its value. -/
def Setting.unvalued (s : Setting) : Setting := { s with value := "" }

namespace Node

mutual

/-- The node with nothing in the place of its values. -/
def unvalued : Node → Node
  | .rule selector children spacing => .rule selector (unvaluedAll children) spacing
  | .declaration property _ spacing semicolon => .declaration property "" spacing semicolon
  | .statement name params before afterName between semicolon =>
    .statement name params before afterName between semicolon
  | .group name params children spacing afterName => .group name params (unvaluedAll children) spacing afterName
  | .comment text before inLine => .comment text before inLine

def unvaluedAll : List Node → List Node
  | [] => []
  | node :: rest => node.unvalued :: unvaluedAll rest

end

mutual

/-- The declarations of a node that stands at this depth. -/
def settings (depth : Depth) : Node → List Setting
  | .rule selector children _ => settingsAll (depth.within selector) children
  | .declaration property value _ _ => [⟨depth, property, value⟩]
  | .statement _ _ _ _ _ _ => []
  | .group _ _ children _ _ => settingsAll .inner children
  | .comment _ _ _ => []

def settingsAll (depth : Depth) : List Node → List Setting
  | [] => []
  | node :: rest => node.settings depth ++ settingsAll depth rest

end

theorem unvaluedAll_eq (nodes : List Node) : unvaluedAll nodes = nodes.map unvalued := by
  induction nodes with
  | nil => rfl
  | cons node rest ih => rw [unvaluedAll, List.map_cons, ih]

/-! ## The frame and the values -/

mutual

theorem settings_unvalued (depth : Depth) :
    ∀ node : Node, node.unvalued.settings depth = (node.settings depth).map Setting.unvalued
  | .rule _ children _ => by rw [unvalued, settings, settings, settingsAll_unvaluedAll _ children]
  | .declaration _ _ _ _ => rfl
  | .statement _ _ _ _ _ _ => rfl
  | .group _ _ children _ _ => by rw [unvalued, settings, settings, settingsAll_unvaluedAll _ children]
  | .comment _ _ _ => rfl

theorem settingsAll_unvaluedAll (depth : Depth) :
    ∀ nodes : List Node, settingsAll depth (unvaluedAll nodes) = (settingsAll depth nodes).map Setting.unvalued
  | [] => rfl
  | node :: rest => by
    rw [unvaluedAll, settingsAll, settingsAll, List.map_append, settings_unvalued depth node,
      settingsAll_unvaluedAll depth rest]

end

/-- In one frame, declarations are the same but for their values. -/
theorem settingsAll_unvalued {a b : List Node} (depth : Depth) (h : unvaluedAll a = unvaluedAll b) :
    (settingsAll depth a).map Setting.unvalued = (settingsAll depth b).map Setting.unvalued := by
  rw [← settingsAll_unvaluedAll, ← settingsAll_unvaluedAll, h]

theorem length_settings {a b : Node} (depth : Depth) (h : a.unvalued = b.unvalued) :
    (a.settings depth).length = (b.settings depth).length := by
  have := congrArg List.length (congrArg (settings depth) h)
  simpa [settings_unvalued] using this

mutual

/-- A node is its frame and its values. -/
theorem eq_of_unvalued (depth : Depth) :
    ∀ a b : Node, a.unvalued = b.unvalued → a.settings depth = b.settings depth → a = b
  | .rule _ children _, b, h, hs => by
    cases b with
    | rule =>
      simp only [unvalued, rule.injEq] at h
      obtain ⟨rfl, h, rfl⟩ := h
      rw [eq_of_unvaluedAll _ children _ h hs]
    | declaration | statement | group | comment => simp [unvalued] at h
  | .declaration _ _ _ _, b, h, hs => by
    cases b with
    | declaration =>
      simp only [unvalued, declaration.injEq] at h
      simp only [settings, List.cons.injEq, Setting.mk.injEq] at hs
      obtain ⟨rfl, -, rfl, rfl⟩ := h
      rw [hs.1.2.2]
    | rule | statement | group | comment => simp [unvalued] at h
  | .statement _ _ _ _ _ _, b, h, _ => by
    cases b with
    | statement => exact h
    | rule | declaration | group | comment => simp [unvalued] at h
  | .group _ _ children _ _, b, h, hs => by
    cases b with
    | group =>
      simp only [unvalued, group.injEq] at h
      obtain ⟨rfl, rfl, h, rfl, rfl⟩ := h
      rw [eq_of_unvaluedAll _ children _ h hs]
    | rule | declaration | statement | comment => simp [unvalued] at h
  | .comment _ _ _, b, h, _ => by
    cases b with
    | comment => exact h
    | rule | declaration | statement | group => simp [unvalued] at h

theorem eq_of_unvaluedAll (depth : Depth) :
    ∀ a b : List Node, unvaluedAll a = unvaluedAll b → settingsAll depth a = settingsAll depth b → a = b
  | [], [], _, _ => rfl
  | [], _ :: _, h, _ => nomatch h
  | _ :: _, [], h, _ => nomatch h
  | a :: as, b :: bs, h, hs => by
    simp only [unvaluedAll, List.cons.injEq] at h
    obtain ⟨hhead, htail⟩ := List.append_inj hs (length_settings depth h.1)
    rw [eq_of_unvalued depth a b h.1 hhead, eq_of_unvaluedAll depth as bs h.2 htail]

end

/-! ## A rule that is put in -/

/-- The nodes with the first of them on a line of its own. -/
def openLine : List Node → List Node
  | [] => []
  | first :: rest => (if first.before.isEmpty then first.withBefore "\n" else first) :: rest

/-- The front, the rule if there is one, and the back. A rule put first loses
the text before it, and the back then begins on a line of its own. -/
def joined (front : List Node) (rule : Option Node) (back : List Node) : List Node :=
  match rule with
  | .none => front ++ back
  | .some rule => if front.isEmpty then rule.withBefore "" :: openLine back else front ++ rule :: back

/-- A node is put in after as many nodes as the index says. -/
theorem insertAt_eq (sheet : Sheet) (index : Nat) (node : Node) :
    sheet.insertAt index node =
      { sheet with nodes := joined (sheet.nodes.take index) (.some node) (sheet.nodes.drop index) } := by
  obtain ⟨nodes, after, source⟩ := sheet
  cases index with
  | zero => cases nodes <;> simp [Sheet.insertAt, joined, openLine]
  | succ index =>
    cases nodes with
    | nil => simp [Sheet.insertAt, joined, openLine]
    | cons first rest =>
      rcases Nat.le_total index rest.length with h | h
      · simp [Sheet.insertAt, joined, Nat.min_eq_left h]
      · simp [Sheet.insertAt, joined, Nat.min_eq_right h, List.take_of_length_le h, List.drop_of_length_le h]

/-- Where the rule stands. -/
theorem getElem?_joined (front back : List Node) (rule : Node) :
    (joined front (.some rule) back)[front.length]? = .some (if front.length = 0 then rule.withBefore "" else rule) := by
  cases front with
  | nil => rfl
  | cons first front => simp [joined]

/-- What is left without it. -/
theorem eraseIdx_joined (front back : List Node) (rule : Node) :
    (joined front (.some rule) back).eraseIdx front.length =
      if front.length = 0 then openLine (front ++ back) else front ++ back := by
  cases front with
  | nil => rfl
  | cons first front => simp [joined, List.eraseIdx_append_of_length_le]

end Node

end ThemeVars
