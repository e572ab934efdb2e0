/-
Logs of messages. `run_spec`: after any pushes and extensions there is one message
for each key, in the order in which the keys came first, and it is the last; the
index has its place. It makes no difference whether messages are gathered first.
`told_push_new`, `told_push_other`: what a push adds to what is told of a kind.
-/
import Mathlib.Tactic.Common
import ThemeVars.Message
import ThemeVars.Proofs.Keyed

namespace ThemeVars

namespace Log

theorem foldl_push (ms : List Message) (log : Log) : ms.foldl push log = ⟨ms.foldl Keyed.push log.toKeyed⟩ := by
  induction ms generalizing log with
  | nil => rfl
  | cons m ms ih => rw [List.foldl_cons, List.foldl_cons, ih, push]

/-- Messages can be gathered first. -/
theorem extend_ofList (log : Log) (ms : List Message) : log.extend (ofList ms) = ms.foldl push log := by
  rw [extend, ofList, foldl_push, foldl_push, foldl_push]
  exact congrArg Log.mk (Keyed.foldl_entries log.toKeyed ms)

/-- What is done to a log. -/
inductive Operation where
  | push (m : Message)
  | extend (other : Log)

/-- The messages that are pushed, one by one. -/
def Operation.messages : Operation → List Message
  | .push m => [m]
  | .extend other => other.entries

def perform (log : Log) : Operation → Log
  | .push m => log.push m
  | .extend other => log.extend other

/-- The log after one thing after the other is done to an empty one. -/
def run (operations : List Operation) : Log := operations.foldl perform {}

theorem run_eq (operations : List Operation) : run operations = ofList (operations.flatMap Operation.messages) := by
  have hfrom (log : Log) : operations.foldl perform log = (operations.flatMap Operation.messages).foldl push log := by
    induction operations generalizing log with
    | nil => rfl
    | cons o operations ih =>
      rw [List.foldl_cons, ih, List.flatMap_cons, List.foldl_append]
      cases o with
      | push m => rfl
      | extend other => rfl
  exact hfrom {}

/-- After any operations, a log has one message for each key, in the order in
which the keys came first, and it is the last; the index has the place of each.
A log that is extended by messages gathered in another is as if they had been
pushed one by one. -/
theorem run_spec (operations : List Operation) :
    (run operations).entries.map Message.key = ((operations.flatMap Operation.messages).map Message.key).eraseDups ∧
      ((run operations).entries.map Message.key).Nodup ∧
      (∀ key, (run operations).entries.find? (·.key == key) =
        (operations.flatMap Operation.messages).reverse.find? (·.key == key)) ∧
      (∀ key slot, (run operations).index.lookup key = .some slot ↔
        ((run operations).entries[slot]?).map Message.key = .some key) ∧
      ∀ (log : Log) (ms : List Message), log.extend (ofList ms) = ms.foldl push log := by
  refine ⟨?_, (run operations).distinct, fun key => ?_, fun _ _ => Keyed.lookup_iff, extend_ofList⟩
  · rw [run_eq, ofList, foldl_push]
    exact Keyed.keys_foldl _
  · rw [run_eq, ofList, foldl_push]
    exact (Keyed.find?_foldl _ _ key).trans Option.or_none

/-! ## Messages of a kind -/

theorem entries_push (log : Log) (m : Message) : (log.push m).entries = Keyed.put Message.key m log.entries :=
  Keyed.entries_push log.toKeyed m

theorem ofKind_push_other {m : Message} {kind : MessageKind} (h : m.kind ≠ kind) (log : Log) :
    (log.push m).ofKind kind = log.ofKind kind := by
  simp only [ofKind, entries_push]
  generalize log.entries = entries
  have hm : (m.kind == kind) = false := by simpa using h
  induction entries with
  | nil => simp [Keyed.put, hm]
  | cons n rest ih =>
    rw [Keyed.put]
    split
    · rename_i hkey
      simp only [Message.key, beq_iff_eq, Prod.mk.injEq] at hkey
      have hn : (n.kind == kind) = false := by rw [hkey.2.1, hm]
      rw [List.filter_cons_of_neg (by simp [hm]), List.filter_cons_of_neg (by simp [hn])]
    · rw [List.filter_cons, List.filter_cons, ih]

/-- A message of a variable of which there is none of the kind comes last. -/
theorem ofKind_push_new {log : Log} {m : Message} (h : ∀ n ∈ log.ofKind m.kind, n.ident ≠ m.ident) :
    (log.push m).ofKind m.kind = log.ofKind m.kind ++ [m] := by
  simp only [ofKind, entries_push] at h ⊢
  generalize log.entries = entries at h ⊢
  induction entries with
  | nil => simp [Keyed.put]
  | cons n rest ih =>
    have hkey : (n.key == m.key) = false := by
      rw [beq_eq_false_iff_ne]
      intro hkey
      simp only [Message.key, Prod.mk.injEq] at hkey
      exact h n (List.mem_filter.2 ⟨List.mem_cons_self, by simp [hkey.2.1]⟩) hkey.1
    rw [Keyed.put, hkey, if_neg Bool.false_ne_true, List.filter_cons, List.filter_cons,
      ih fun n hn => h n (by rw [List.filter_cons]; split <;> simp [hn])]
    split
    · rfl
    · rfl

/-- The variables that messages of the kind are about, with their values. -/
def told (log : Log) (kind : MessageKind) : List (Ident × String) :=
  (log.ofKind kind).map fun m => (m.ident, m.value)

theorem told_push_other {m : Message} {kind : MessageKind} (h : m.kind ≠ kind) (log : Log) :
    (log.push m).told kind = log.told kind := by
  rw [told, ofKind_push_other h, told]

theorem told_push_new {log : Log} {m : Message} (h : ∀ d ∈ log.told m.kind, d.1 ≠ m.ident) :
    (log.push m).told m.kind = log.told m.kind ++ [(m.ident, m.value)] := by
  rw [told, ofKind_push_new fun n hn => h _ (List.mem_map_of_mem hn), List.map_append]
  rfl

end Log

end ThemeVars
