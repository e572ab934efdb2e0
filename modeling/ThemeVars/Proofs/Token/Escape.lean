/-
Runs of characters and escapes, cut and joined. `spanEscaped_alone`: a run
that ends before a rest is a run by itself. `spanEscaped_join`: a run is
taken up where it stopped, unless it stopped after a backslash.
-/
import Mathlib.Tactic.Common
import ThemeVars.Token.Escape

namespace ThemeVars

open Text

/-- Where one stands after a run. -/
def EscapeState.after (st : EscapeState) (run : List Char) : EscapeState := run.foldl EscapeState.next st

@[simp] theorem EscapeState.after_nil (st : EscapeState) : st.after [] = st := rfl

@[simp] theorem EscapeState.after_cons (st : EscapeState) (c : Char) (run : List Char) :
    st.after (c :: run) = (st.next c).after run := rfl

/-- The run that stopped in this state goes no further into the text. -/
def RunEnds (inString : Bool) (admits : Char → Bool) (st : EscapeState) (s : List Char) : Prop :=
  ∀ c cs, s = c :: cs → endsRun inString admits st c cs = true

theorem RunEnds.nil {inString : Bool} {admits : Char → Bool} {st : EscapeState} :
    RunEnds inString admits st [] := by
  intro c cs h
  cases h

section

variable {inString : Bool} {admits : Char → Bool} {st : EscapeState}

theorem spanEscaped_isPrefix (s : List Char) : (spanEscaped inString admits st s).1 <+: s :=
  ⟨_, spanEscaped_append inString admits st s⟩

theorem endsRun_nil_of_false {c : Char} {a : List Char} (h : endsRun inString admits st c a = false) :
    endsRun inString admits st c [] = false := by
  by_cases hb : c = '\\'
  · subst hb
    simp [endsRun]
  · simpa [endsRun, hb] using h

theorem endsRun_of_nil {c : Char} (a : List Char) (h : endsRun inString admits st c [] = false)
    (hs : st.next c ≠ .slash) : endsRun inString admits st c a = false := by
  by_cases hb : c = '\\'
  · subst hb
    have hf : st.isFresh '\\' = false := by
      by_contra hf
      rw [Bool.not_eq_false] at hf
      exact hs (by simp [EscapeState.next, hf])
    simp [endsRun, hf]
  · simpa [endsRun, hb] using h

theorem spanEscaped_cons {c : Char} {cs : List Char} (h : endsRun inString admits st c cs = false) :
    spanEscaped inString admits st (c :: cs) =
      (c :: (spanEscaped inString admits (st.next c) cs).1, (spanEscaped inString admits (st.next c) cs).2) := by
  simp [spanEscaped, h]

/-- A run that takes a character goes on after it. -/
theorem spanEscaped_cons_inv {c : Char} {cs x u : List Char}
    (h : spanEscaped inString admits st (c :: cs) = (c :: x, u)) :
    endsRun inString admits st c cs = false ∧ spanEscaped inString admits (st.next c) cs = (x, u) := by
  by_cases he : endsRun inString admits st c cs = true
  · simp [spanEscaped, he] at h
  · rw [Bool.not_eq_true] at he
    rw [spanEscaped_cons he, Prod.mk.injEq, List.cons.injEq] at h
    exact ⟨he, Prod.ext h.1.2 h.2⟩

/-- The rest after a run ends it. -/
theorem runEnds_of_spanEscaped {x u : List Char} (h : spanEscaped inString admits st (x ++ u) = (x, u)) :
    RunEnds inString admits (st.after x) u := by
  induction x generalizing st with
  | nil =>
    intro c cs hu
    subst hu
    by_contra he
    rw [Bool.not_eq_true] at he
    rw [EscapeState.after_nil] at he
    rw [List.nil_append, spanEscaped_cons he] at h
    cases congrArg Prod.fst h
  | cons c x ih => exact ih (spanEscaped_cons_inv h).2

/-- A run before a rest is a run by itself. -/
theorem spanEscaped_alone {x u : List Char} (h : spanEscaped inString admits st (x ++ u) = (x, u)) :
    spanEscaped inString admits st x = (x, []) := by
  induction x generalizing st with
  | nil => rfl
  | cons c x ih =>
    obtain ⟨he, hx⟩ := spanEscaped_cons_inv h
    have he' : endsRun inString admits st c x = false := by
      cases x with
      | nil => exact endsRun_nil_of_false he
      | cons d x => exact he
    rw [spanEscaped_cons he', ih hx]

/-- A run goes on in the text after it from where it stopped. -/
theorem spanEscaped_join {x : List Char} (u : List Char) (h : spanEscaped inString admits st x = (x, []))
    (hs : st.after x ≠ .slash) :
    spanEscaped inString admits st (x ++ u) =
      (x ++ (spanEscaped inString admits (st.after x) u).1, (spanEscaped inString admits (st.after x) u).2) := by
  induction x generalizing st with
  | nil => rfl
  | cons c x ih =>
    obtain ⟨he, hx⟩ := spanEscaped_cons_inv h
    have he' : endsRun inString admits st c (x ++ u) = false := by
      cases x with
      | nil => exact endsRun_of_nil u he hs
      | cons d x => exact he
    rw [List.cons_append, spanEscaped_cons he', ih hx hs]
    rfl

theorem spanEscaped_of_runEnds {u : List Char} (h : RunEnds inString admits st u) :
    spanEscaped inString admits st u = ([], u) := by
  cases u with
  | nil => rfl
  | cons c cs => simp [spanEscaped, h c cs rfl]

/-- A run keeps to itself before any rest that ends it. -/
theorem spanEscaped_change {x u v : List Char} (h : spanEscaped inString admits st (x ++ u) = (x, u))
    (hs : st.after x ≠ .slash) (hv : RunEnds inString admits (st.after x) v) :
    spanEscaped inString admits st (x ++ v) = (x, v) := by
  rw [spanEscaped_join v (spanEscaped_alone h) hs, spanEscaped_of_runEnds hv, List.append_nil]

end

/-- After a backslash no character ends a run. -/
theorem eq_nil_of_runEnds_slash {inString : Bool} {admits : Char → Bool} {s : List Char}
    (h : RunEnds inString admits .slash s) : s = [] := by
  cases s with
  | nil => rfl
  | cons c cs =>
    have := h c cs rfl
    simp [endsRun, EscapeState.isFresh] at this

/-! ## Names -/

/-- The text goes on with no part of a name that has been read up to here. -/
def NameEnds (x u : List Char) : Prop := RunEnds false isNameChar (EscapeState.plain.after x) u

theorem nameAt_isPrefix (s : List Char) : nameAt s <+: s := spanEscaped_isPrefix s

theorem nameAt_ne_nil {s : List Char} (h : startsName s = true) : nameAt s ≠ [] := by
  cases s with
  | nil => simp [startsName] at h
  | cons c cs =>
    have hrun : endsRun false isNameChar .plain c cs = false := by
      by_cases hb : c = '\\'
      · subst hb
        simpa [startsName, endsRun, EscapeState.isFresh] using h
      by_cases hm : c = '-'
      · subst hm
        rfl
      · have hn : isNameStart c = true := by simpa [startsName, hm, hb] using h
        simp [endsRun, EscapeState.isFresh, hb, isNameChar, hn]
    rw [nameAt, spanEscaped_cons hrun]
    exact List.cons_ne_nil _ _

theorem spanEscaped_nameAt (s : List Char) :
    spanEscaped false isNameChar .plain s = (nameAt s, s.drop (nameAt s).length) := by
  have h := congrArg (List.drop (nameAt s).length) (spanEscaped_append false isNameChar .plain s)
  rw [nameAt, List.drop_left] at h
  exact Prod.ext rfl h

/-- A name that the text is, before a rest that ends it. -/
theorem nameAt_append_iff {x u : List Char} :
    nameAt (x ++ u) = x ↔ spanEscaped false isNameChar .plain (x ++ u) = (x, u) := by
  constructor
  · intro h
    rw [spanEscaped_nameAt, h, List.drop_left]
  · intro h
    rw [nameAt, h]

theorem nameEnds_of_nameAt {x u : List Char} (h : nameAt (x ++ u) = x) : NameEnds x u :=
  runEnds_of_spanEscaped (nameAt_append_iff.1 h)

/-- A name stays the same before any rest that ends it. -/
theorem nameAt_change {x u v : List Char} (h : nameAt (x ++ u) = x) (hv : NameEnds x v) :
    nameAt (x ++ v) = x := by
  by_cases hs : EscapeState.plain.after x = .slash
  · have hu := nameEnds_of_nameAt h
    rw [NameEnds, hs] at hu hv
    rw [eq_nil_of_runEnds_slash hv, ← eq_nil_of_runEnds_slash hu, h]
  · exact nameAt_append_iff.2 (spanEscaped_change (nameAt_append_iff.1 h) hs hv)

end ThemeVars
