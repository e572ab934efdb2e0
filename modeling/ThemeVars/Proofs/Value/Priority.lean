/-
Priority markers. `splitPriority_spec`: a value is cut into a body and a run of
markers, and neither a blank nor a marker is left at the end of the body.
`splitPriority_comment`: before a comment, a marker is left.
-/
import ThemeVars.Proofs.Text.Trim
import ThemeVars.Token.Lexer
import ThemeVars.Value.Priority

namespace ThemeVars.Value

open Text

/-! ## Markers -/

/-- Blanks, an exclamation mark, blanks and a word. -/
inductive IsMarker : List Char → Prop
  | mk {before after word : List Char} {c : Char} : (∀ b ∈ before, isBlank b = true) → (∀ b ∈ after, isBlank b = true) →
    c.isAlpha = true → (∀ d ∈ word, isMarkerChar d = true) → IsMarker (before ++ '!' :: (after ++ c :: word))

/-- One marker after the other, and then blanks. -/
def IsPriority (s : List Char) : Prop :=
  ∃ (markers : List (List Char)) (blanks : List Char),
    (∀ m ∈ markers, IsMarker m) ∧ (∀ b ∈ blanks, isBlank b = true) ∧ s = markers.flatten ++ blanks

theorem isMarkerChar_of_isAlpha {c : Char} (h : c.isAlpha = true) : isMarkerChar c = true := by
  rw [isMarkerChar, h, Bool.true_or]

theorem isMarkerChar_of_isBlank {c : Char} (h : isBlank c = true) : isMarkerChar c = false := by
  have hmarker : isMarkerChar c =
      (decide (65 ≤ c.val ∧ c.val ≤ 90) || decide (97 ≤ c.val) && decide (c.val ≤ 122) || c == '-') := rfl
  by_contra hc
  simp only [hmarker, Bool.not_eq_false, Bool.or_eq_true, Bool.and_eq_true, decide_eq_true_eq, beq_iff_eq,
    UInt32.le_iff_toNat_le] at hc
  rcases hc with (hc | hc) | rfl
  · change 65 ≤ c.toNat ∧ c.toNat ≤ 90 at hc
    simp only [isBlank, Bool.or_eq_true, Bool.and_eq_true, decide_eq_true_eq, beq_iff_eq] at h
    omega
  · change 97 ≤ c.toNat ∧ c.toNat ≤ 122 at hc
    simp only [isBlank, Bool.or_eq_true, Bool.and_eq_true, decide_eq_true_eq, beq_iff_eq] at h
    omega
  · revert h
    decide

/-- What a marker at the front is, read backwards. -/
theorem afterMarker?_eq_some {s rest : List Char} :
    afterMarker? s = .some rest ↔ ∃ word c after, (∀ d ∈ word, isMarkerChar d = true) ∧ c.isAlpha = true ∧
      (∀ b ∈ after, isBlank b = true) ∧ s = word ++ c :: (after ++ '!' :: rest) := by
  constructor
  · intro h
    unfold afterMarker? at h
    split at h
    · rename_i hlast
      split at h
      · rename_i d rest' hrest
        split at h
        · rename_i hd
          rw [beq_iff_eq] at hd
          subst hd
          cases h
          obtain ⟨c, hc, halpha⟩ := (Option.any_eq_true _ _).1 hlast
          obtain ⟨word, hword⟩ := List.getLast?_eq_some_iff.1 hc
          refine ⟨word, c, (s.dropWhile isMarkerChar).takeWhile isBlank, fun d hd => ?_, halpha,
            fun b hb => List.mem_takeWhile_imp hb, ?_⟩
          · exact List.mem_takeWhile_imp (l := s) (hword ▸ List.mem_append_left _ hd)
          · rw [← hrest, List.takeWhile_append_dropWhile, ← List.singleton_append, ← List.append_assoc, ← hword,
              List.takeWhile_append_dropWhile]
        · cases h
      · cases h
    · cases h
  · rintro ⟨word, c, after, hword, hc, hafter, rfl⟩
    have hall : ∀ d ∈ word ++ [c], isMarkerChar d = true := by
      rw [List.forall_mem_append, List.forall_mem_singleton]
      exact ⟨hword, isMarkerChar_of_isAlpha hc⟩
    have hnext : (after ++ '!' :: rest).takeWhile isMarkerChar = [] ∧
        (after ++ '!' :: rest).dropWhile isMarkerChar = after ++ '!' :: rest := by
      cases after with
      | nil => exact ⟨rfl, rfl⟩
      | cons b after =>
        have hb := isMarkerChar_of_isBlank (hafter b List.mem_cons_self)
        exact ⟨List.takeWhile_cons_of_neg (by simp [hb]), List.dropWhile_cons_of_neg (by simp [hb])⟩
    rw [show word ++ c :: (after ++ '!' :: rest) = (word ++ [c]) ++ (after ++ '!' :: rest) by simp, afterMarker?,
      List.takeWhile_append_of_pos hall, List.dropWhile_append_of_pos hall, hnext.1, hnext.2, List.append_nil,
      List.getLast?_concat, Option.any_some, if_pos hc, List.dropWhile_append_of_pos hafter]
    rfl

/-- A marker is read backwards as one. -/
theorem IsMarker.afterMarker? {m : List Char} (h : IsMarker m) (front : List Char) :
    ∃ rest, Value.afterMarker? (m.reverse ++ front) = .some rest := by
  cases h with
  | @mk before after word c _ hafter hc hword =>
    refine ⟨before.reverse ++ front, afterMarker?_eq_some.2 ⟨word.reverse, c, after.reverse, ?_, hc, ?_, by simp⟩⟩
    · exact fun d hd => hword d (List.mem_reverse.1 hd)
    · exact fun b hb => hafter b (List.mem_reverse.1 hb)

/-! ## Cutting them off -/

/-- The text, read backwards, begins with neither a blank nor a marker. -/
structure Unmarked (backwards : List Char) : Prop where
  blank : backwards.head?.any isBlank = false
  marker : afterMarker? backwards = .none

theorem unmarked_dropMarkers (s : List Char) : Unmarked (dropMarkers s) := by
  fun_induction dropMarkers s with
  | case1 s trimmed rest h ih => exact ih
  | case2 s trimmed h =>
    refine ⟨?_, h⟩
    have hhead := List.head?_dropWhile_not isBlank s
    cases hs : trimmed.head? with
    | none => rfl
    | some c =>
      rw [hs] at hhead
      exact hhead

theorem Unmarked.dropMarkers {s : List Char} (h : Unmarked s) : dropMarkers s = s := by
  have hblank : s.dropWhile isBlank = s := by
    cases s with
    | nil => rfl
    | cons c s => exact List.dropWhile_cons_of_neg (by simpa using h.blank)
  rw [Value.dropMarkers]
  simp only [hblank]
  split
  · rename_i rest hrest
    rw [hblank] at hrest
    cases hrest.symm.trans h.marker
  · rfl

/-- What is cut off is a run of markers. -/
theorem exists_dropMarkers (s : List Char) : ∃ cut, s = cut ++ dropMarkers s ∧ IsPriority cut.reverse := by
  fun_induction dropMarkers s with
  | case1 s trimmed rest h ih =>
    obtain ⟨cut, hcut, markers, blanks, hmarkers, hblanks, hreverse⟩ := ih
    obtain ⟨word, c, after, hword, hc, hafter, htrimmed⟩ := afterMarker?_eq_some.1 h
    have hs : s = s.takeWhile isBlank ++ (word ++ c :: (after ++ '!' :: rest)) :=
      htrimmed ▸ List.takeWhile_append_dropWhile.symm
    have hmarker : IsMarker (blanks ++ '!' :: (after.reverse ++ c :: word.reverse)) :=
      .mk hblanks (fun b hb => hafter b (List.mem_reverse.1 hb)) hc fun d hd => hword d (List.mem_reverse.1 hd)
    refine ⟨s.takeWhile isBlank ++ (word ++ c :: (after ++ '!' :: cut)), ?_,
      markers ++ [blanks ++ '!' :: (after.reverse ++ c :: word.reverse)], (s.takeWhile isBlank).reverse, ?_, ?_, ?_⟩
    · rw [hcut] at hs
      simpa using hs
    · rw [List.forall_mem_append, List.forall_mem_singleton]
      exact ⟨hmarkers, hmarker⟩
    · exact fun b hb => List.mem_takeWhile_imp (List.mem_reverse.1 hb)
    · simp [hreverse]
  | case2 s trimmed h =>
    refine ⟨s.takeWhile isBlank, List.takeWhile_append_dropWhile.symm, [], (s.takeWhile isBlank).reverse, ?_, ?_, rfl⟩
    · exact fun m hm => absurd hm List.not_mem_nil
    · exact fun b hb => List.mem_takeWhile_imp (List.mem_reverse.1 hb)

/-! ## Behind a text -/

/-- Where nothing is to be cut off, nothing is. -/
theorem stripPriority_of_unmarked {s : String} (h : Unmarked s.toList.reverse) : stripPriority s = s := by
  rw [← String.toList_inj, stripPriority, String.toList_ofList, h.dropMarkers, List.reverse_reverse]

theorem dropMarkers_blanks {blanks : List Char} (h : ∀ b ∈ blanks, isBlank b = true) (s : List Char) :
    dropMarkers (blanks ++ s) = dropMarkers s := by
  rw [dropMarkers, dropMarkers, List.dropWhile_append_of_pos h]

theorem dropMarkers_marker {m : List Char} (h : IsMarker m) (s : List Char) : dropMarkers (m.reverse ++ s) = dropMarkers s := by
  cases h with
  | @mk before after word c hbefore hafter hc hword =>
    have hcut : afterMarker? ((before ++ '!' :: (after ++ c :: word)).reverse ++ s) = .some (before.reverse ++ s) :=
      afterMarker?_eq_some.2 ⟨word.reverse, c, after.reverse, fun d hd => hword d (List.mem_reverse.1 hd), hc,
        fun b hb => hafter b (List.mem_reverse.1 hb), by simp⟩
    have hblank : ((before ++ '!' :: (after ++ c :: word)).reverse ++ s).dropWhile isBlank =
        (before ++ '!' :: (after ++ c :: word)).reverse ++ s := by
      have hnone {d : Char} (hd : isMarkerChar d = true) : ¬ isBlank d = true := fun hb => by
        rw [isMarkerChar_of_isBlank hb] at hd
        cases hd
      cases hw : word.reverse with
      | nil =>
        obtain rfl := List.reverse_eq_nil_iff.1 hw
        simpa using hnone (isMarkerChar_of_isAlpha hc)
      | cons d ds =>
        have hd : d ∈ word := List.mem_reverse.1 (hw ▸ List.mem_cons_self)
        simpa [hw] using hnone (hword d hd)
    rw [dropMarkers]
    simp only [hblank]
    split
    · rename_i rest hrest
      rw [hblank] at hrest
      cases hcut.symm.trans hrest
      exact dropMarkers_blanks (fun b hb => hbefore b (List.mem_reverse.1 hb)) s
    · rename_i hnone
      rw [hblank] at hnone
      cases hcut.symm.trans hnone

/-- A run of markers is cut off. -/
theorem dropMarkers_priority {p : List Char} (h : IsPriority p) (s : List Char) : dropMarkers (p.reverse ++ s) = dropMarkers s := by
  obtain ⟨markers, blanks, hmarkers, hblanks, rfl⟩ := h
  rw [List.reverse_append, List.append_assoc, dropMarkers_blanks fun b hb => hblanks b (List.mem_reverse.1 hb)]
  induction markers generalizing s with
  | nil => rfl
  | cons m markers ih =>
    obtain ⟨hm, hmarkers⟩ := List.forall_mem_cons.1 hmarkers
    rw [List.flatten_cons, List.reverse_append, List.append_assoc, ih (m.reverse ++ s) hmarkers, dropMarkers_marker hm]

theorem stripPriority_append {s p : String} (hp : IsPriority p.toList) (hs : Unmarked s.toList.reverse) :
    stripPriority (s ++ p) = s := by
  rw [← String.toList_inj, stripPriority, String.toList_ofList, String.toList_append, List.reverse_append,
    dropMarkers_priority hp, hs.dropMarkers, List.reverse_reverse]

/-- No marker goes past the character. -/
def Stops (c : Char) : Prop := isMarkerChar c = false ∧ isBlank c = false ∧ c ≠ '!'

/-- Behind a character that no marker goes past, nothing changes what is at the
end. -/
theorem Unmarked.past {t x y : List Char} {c : Char} (hc : Stops c) (h : Unmarked (t ++ y)) : Unmarked (t ++ c :: x) := by
  refine ⟨?_, ?_⟩
  · cases t with
    | nil => simpa using hc.2.1
    | cons d t => simpa using h.blank
  · by_contra hsome
    obtain ⟨rest, hsome⟩ := Option.ne_none_iff_exists'.1 hsome
    obtain ⟨word, d, after, hword, hd, hafter, hs⟩ := afterMarker?_eq_some.1 hsome
    have hsplit : t ++ c :: x = (word ++ d :: (after ++ ['!'])) ++ rest := by simp [hs]
    -- the marker ends before the character, and is there without it
    have hin : c ∉ word ++ d :: (after ++ ['!']) := by
      simp only [List.mem_append, List.mem_cons, List.not_mem_nil, or_false, not_or]
      refine ⟨fun hm => ?_, fun hm => ?_, fun hm => ?_, hc.2.2⟩
      · exact absurd (hword c hm) (by simp [hc.1])
      · exact absurd (isMarkerChar_of_isAlpha hd) (by simp [← hm, hc.1])
      · exact absurd (hafter c hm) (by simp [hc.2.1])
    obtain ⟨t', rfl⟩ : ∃ t', t = (word ++ d :: (after ++ ['!'])) ++ t' := by
      rcases List.append_eq_append_iff.1 hsplit with ⟨a, ha, hrest⟩ | ⟨a, ha, -⟩
      · cases a with
        | nil => exact ⟨[], by rw [ha, List.append_nil, List.append_nil]⟩
        | cons e a =>
          cases hrest
          exact absurd (by simp [ha]) hin
      · exact ⟨a, ha⟩
    have hcut : afterMarker? ((word ++ d :: (after ++ ['!'])) ++ t' ++ y) = .some (t' ++ y) :=
      afterMarker?_eq_some.2 ⟨word, d, after, hword, hd, hafter, by simp⟩
    cases hcut.symm.trans h.marker

/-! ## Bodies -/

/-- Neither a blank nor a marker is at the end. -/
structure EndsUnmarked (s : List Char) : Prop where
  blank : s.getLast?.any isBlank = false
  marker : ∀ m, IsMarker m → ¬ m <:+ s

theorem Unmarked.endsUnmarked {s : List Char} (h : Unmarked s) : EndsUnmarked s.reverse := by
  refine ⟨?_, fun m hm => ?_⟩
  · rw [List.getLast?_reverse]
    exact h.blank
  · rintro ⟨front, hfront⟩
    obtain ⟨rest, hrest⟩ := hm.afterMarker? front.reverse
    rw [← List.reverse_append, hfront, List.reverse_reverse, h.marker] at hrest
    cases hrest

/-- A value is cut between a body that ends unmarked and a run of markers. -/
theorem splitPriority_toList (value : String) :
    value.toList = (splitPriority value).1.toList ++ (splitPriority value).2.toList ∧
      IsPriority (splitPriority value).2.toList ∧ Unmarked (splitPriority value).1.toList.reverse := by
  obtain ⟨cut, hcut, hpriority⟩ := exists_dropMarkers value.toList.reverse
  have hbody : (splitPriority value).1.toList = (dropMarkers value.toList.reverse).reverse := String.toList_ofList
  have hvalue : value.toList = (splitPriority value).1.toList ++ cut.reverse := by
    rw [hbody, ← List.reverse_append, ← hcut, List.reverse_reverse]
  have hmarkers : (splitPriority value).2.toList = cut.reverse := by
    rw [splitPriority, String.toList_ofList]
    change value.toList.drop (splitPriority value).1.length = cut.reverse
    rw [← String.length_toList, hvalue, List.drop_left]
  rw [hmarkers]
  refine ⟨hvalue, hpriority, ?_⟩
  rw [hbody, List.reverse_reverse]
  exact unmarked_dropMarkers _

/-- A value is its body and its priority. The body, which has neither a blank nor
a marker at its end, has nothing left to be cut off. -/
theorem splitPriority_spec (value : String) :
    (splitPriority value).1 ++ (splitPriority value).2 = value ∧ (splitPriority value).1 = stripPriority value ∧
      stripPriority (splitPriority value).1 = (splitPriority value).1 ∧ IsPriority (splitPriority value).2.toList ∧
      EndsUnmarked (splitPriority value).1.toList := by
  obtain ⟨hvalue, hpriority, hunmarked⟩ := splitPriority_toList value
  refine ⟨?_, rfl, stripPriority_of_unmarked hunmarked, hpriority, ?_⟩
  · rw [← String.toList_inj, String.toList_append, hvalue]
  · have hends := hunmarked.endsUnmarked
    rwa [List.reverse_reverse] at hends

/-- A comment behind it hides a marker. -/
theorem splitPriority_comment :
    splitPriority "red !important /* c */" = ("red !important /* c */", "") ∧ IsMarker " !important".toList ∧
      (lexemes " /* c */".toList).map (·.token) = [.space, .comment] := by
  have hword : ∀ d ∈ "mportant".toList, isMarkerChar d = true := List.all_eq_true.1 (by decide +kernel)
  have hmarker : IsMarker ([' '] ++ '!' :: ([] ++ 'i' :: "mportant".toList)) :=
    .mk (List.forall_mem_singleton.2 rfl) (List.forall_mem_nil _) rfl hword
  refine ⟨?_, hmarker, ?_⟩
  · decide +kernel
  · decide +kernel

end ThemeVars.Value
