/-
How a value is read, as a relation: one rule for each kind of piece.
`readsAs_iff`: the relation is what the reader computes.
-/
import ThemeVars.Proofs.Outcome
import ThemeVars.Proofs.Token.Matching
import ThemeVars.Value.Reader

namespace ThemeVars

namespace Pieces

/-- The sequence with these leaves in front. -/
def leaves (ls : List Lexeme) (p : Pieces) : Pieces := ls.foldr leaf p

@[simp] theorem leaves_nil (p : Pieces) : leaves [] p = p := rfl

@[simp] theorem leaves_cons (l : Lexeme) (ls : List Lexeme) (p : Pieces) : leaves (l :: ls) p = .leaf l (leaves ls p) := rfl

theorem lexemes_leaves (ls : List Lexeme) (p : Pieces) : (leaves ls p).lexemes = ls ++ p.lexemes := by
  induction ls with
  | nil => rfl
  | cons l ls ih => simp [lexemes, ih]

/-- What is dropped from the front of a sequence are leaves. -/
theorem exists_leaves (f : Token → Bool) (p : Pieces) :
    ∃ ls, (∀ l ∈ ls, f l.token = true) ∧ p = leaves ls (p.dropLeaves f) ∧ p.leavesText f = ls.flatMap (·.text) := by
  induction p with
  | done => exact ⟨[], by simp, rfl, rfl⟩
  | leaf l rest ih =>
    by_cases hl : f l.token = true
    · obtain ⟨ls, hls, hrest, htext⟩ := ih
      refine ⟨l :: ls, by simpa [hl] using hls, ?_, by simp [leavesText, hl, htext]⟩
      rw [dropLeaves, if_pos hl, leaves_cons, ← hrest]
    · exact ⟨[], by simp, by simp [dropLeaves, hl], by simp [leavesText, hl]⟩
  | block => exact ⟨[], by simp, rfl, rfl⟩

theorem dropLeaves_leaves {f : Token → Bool} {ls : List Lexeme} (h : ∀ l ∈ ls, f l.token = true) (p : Pieces) :
    (leaves ls p).dropLeaves f = p.dropLeaves f := by
  induction ls with
  | nil => rfl
  | cons l ls ih =>
    rw [leaves_cons, dropLeaves, if_pos (h l (by simp)), ih fun m hm => h m (by simp [hm])]

theorem leavesText_leaves {f : Token → Bool} {ls : List Lexeme} (h : ∀ l ∈ ls, f l.token = true) (p : Pieces) :
    (leaves ls p).leavesText f = ls.flatMap (·.text) ++ p.leavesText f := by
  induction ls with
  | nil => rfl
  | cons l ls ih =>
    rw [leaves_cons, leavesText, if_pos (h l (by simp)), ih fun m hm => h m (by simp [hm])]
    simp

end Pieces

namespace Value

open Pieces (leaves)

/-- Comments only. -/
def AllComments (ls : List Lexeme) : Prop := ∀ l ∈ ls, (l.token == .comment) = true

theorem curlyNext?_eq_some {p inner rest : Pieces} :
    curlyNext? p = .some (inner, rest) ↔
      ∃ cs opener closer, AllComments cs ∧ p = leaves cs (.block opener .curly inner closer rest) := by
  constructor
  · intro h
    obtain ⟨cs, hcs, hp, -⟩ := Pieces.exists_leaves (· == .comment) p
    unfold curlyNext? Pieces.afterComments at h
    split at h
    · rename_i opener inner' closer rest' hd
      cases h
      exact ⟨cs, opener, closer, hcs, hd ▸ hp⟩
    · cases h
  · rintro ⟨cs, opener, closer, hcs, rfl⟩
    unfold curlyNext? Pieces.afterComments
    rw [Pieces.dropLeaves_leaves (f := (· == .comment)) hcs]
    rfl

theorem nameNext?_eq_some {p rest : Pieces} {name : String} {raw : List Char} :
    nameNext? p = .some (name, raw, rest) ↔
      ∃ cs m, AllComments cs ∧ m.token = .ident name ∧ p = leaves cs (.leaf m rest) ∧
        raw = cs.flatMap (·.text) ++ m.text := by
  constructor
  · intro h
    obtain ⟨cs, hcs, hp, htext⟩ := Pieces.exists_leaves (· == .comment) p
    unfold nameNext? Pieces.afterComments at h
    split at h
    · rename_i m rest' hd
      split at h
      · rename_i ht
        cases h
        exact ⟨cs, m, hcs, ht, hd ▸ hp, by rw [htext]⟩
      · cases h
    · cases h
  · rintro ⟨cs, m, hcs, hm, rfl, rfl⟩
    have hne : (m.token == .comment) = false := by rw [hm]; rfl
    unfold nameNext? Pieces.afterComments
    rw [Pieces.dropLeaves_leaves (f := (· == .comment)) hcs, Pieces.leavesText_leaves (f := (· == .comment)) hcs]
    simp [Pieces.dropLeaves, Pieces.leavesText, hm]

/-- Before these pieces, the lexeme is text. -/
structure IsText (sigil : Option Char) (l : Lexeme) (rest : Pieces) : Prop where
  badUrl : ∀ s, l.token ≠ .badUrl s
  badString : ∀ s, l.token ≠ .badString s
  atKeyword : ∀ name, l.token = .atKeyword name → sigil ≠ .some '@'
  hash : l.token = .delim '#' → curlyNext? rest = .none
  sigil : ∀ c, l.token = .delim c → c ≠ '#' → sigil = .some c → nameNext? rest = .none

/-- The pieces are read as this value. -/
inductive ReadsAs (sigil : Option Char) : Pieces → Value → Prop
  | done : ReadsAs sigil .done .done
  | text {l rest v} : IsText sigil l rest → ReadsAs sigil rest v →
    ReadsAs sigil (.leaf l rest) (consText (String.ofList l.text) v)
  | interpolation {l cs opener inner closer rest a b} : l.token = .delim '#' → AllComments cs →
    ReadsAs sigil inner a → ReadsAs sigil rest b →
    ReadsAs sigil (.leaf l (leaves cs (.block opener .curly inner closer rest))) (.interpolation a b)
  | atKeyword {l name rest v} : l.token = .atKeyword name → sigil = .some '@' → ReadsAs sigil rest v →
    ReadsAs sigil (.leaf l rest) (.reference ⟨"@" ++ name, String.ofList l.text, .sigil⟩ v)
  | sigil {l c cs m name rest v} : l.token = .delim c → c ≠ '#' → sigil = .some c → AllComments cs →
    m.token = .ident name → ReadsAs sigil rest v →
    ReadsAs sigil (.leaf l (leaves cs (.leaf m rest)))
      (.reference ⟨String.ofList (c :: name.toList), String.ofList (l.text ++ (cs.flatMap (·.text) ++ m.text)), .sigil⟩ v)
  | var {opener bracket inner closer rest name v} : opensVar opener.token = true →
    varParts inner = .ok (name, .none) → ReadsAs sigil rest v →
    ReadsAs sigil (.block opener bracket inner closer rest)
      (.reference ⟨name, String.ofList (Pieces.blockText opener inner closer), .var⟩ v)
  | guarded {opener bracket inner closer rest name fallback a v} : opensVar opener.token = true →
    varParts inner = .ok (name, .some fallback) → ReadsAs sigil fallback a → ReadsAs sigil rest v →
    ReadsAs sigil (.block opener bracket inner closer rest)
      (.guarded ⟨name, String.ofList (Pieces.blockText opener inner closer), .var⟩ a v)
  | block {opener bracket inner closer rest a v} : opensVar opener.token = false →
    ReadsAs sigil inner a → ReadsAs sigil rest v →
    ReadsAs sigil (.block opener bracket inner closer rest)
      (consText (String.ofList opener.text) (a.append (consText bracket.closer v)))

variable {sigil : Option Char}

/-- A leaf of a kind that never starts anything is text. -/
theorem IsText.of_token {l : Lexeme} (rest : Pieces) (hu : ∀ s, l.token ≠ .badUrl s) (hs : ∀ s, l.token ≠ .badString s)
    (ha : ∀ name, l.token ≠ .atKeyword name) (hd : ∀ c, l.token ≠ .delim c) : IsText sigil l rest :=
  ⟨hu, hs, fun name h => absurd h (ha name), fun h => absurd h (hd '#'), fun c h => absurd h (hd c)⟩

theorem readsAs_of_ofPieces {p : Pieces} {v : Value} (h : ofPieces sigil p = .ok v) : ReadsAs sigil p v := by
  induction hn : p.size using Nat.strongRecOn generalizing p v with
  | _ n ih =>
  subst hn
  cases p with
  | done =>
    rw [ofPieces] at h
    cases h
    exact .done
  | leaf l rest =>
    have hrest {w : Value} (hw : ofPieces sigil rest = .ok w) : ReadsAs sigil rest w :=
      ih rest.size (by simp [Pieces.size]) hw rfl
    rw [ofPieces] at h
    split at h
    · cases h
    · cases h
    · rename_i name ht
      split at h
      · rename_i hs
        obtain ⟨w, hw, rfl⟩ := map_ok.1 h
        exact .atKeyword ht (by simpa using hs) (hrest hw)
      · rename_i hs
        obtain ⟨w, hw, rfl⟩ := map_ok.1 h
        refine .text ⟨by simp [ht], by simp [ht], fun _ _ => by simpa using hs, by simp [ht], by simp [ht]⟩ (hrest hw)
    · rename_i c ht
      split at h
      · rename_i hc
        rw [beq_iff_eq] at hc
        subst hc
        split at h
        · rename_i inner after hnext
          have hsize := size_curlyNext? hnext
          obtain ⟨cs, opener, closer, hcs, rfl⟩ := curlyNext?_eq_some.1 hnext
          obtain ⟨a, ha, h⟩ := bind_ok.1 h
          obtain ⟨b, hb, rfl⟩ := map_ok.1 h
          refine .interpolation ht hcs (ih _ ?_ ha rfl) (ih _ ?_ hb rfl)
          · simp only [Pieces.size]
            omega
          · simp only [Pieces.size]
            omega
        · rename_i hnext
          obtain ⟨w, hw, rfl⟩ := map_ok.1 h
          exact .text ⟨by simp [ht], by simp [ht], by simp [ht], fun _ => hnext, by simp [ht]⟩ (hrest hw)
      · rename_i hc
        rw [beq_iff_eq] at hc
        split at h
        · rename_i hs
          rw [beq_iff_eq] at hs
          split at h
          · rename_i name raw after hnext
            have hsize := size_nameNext? hnext
            obtain ⟨cs, m, hcs, hm, rfl, rfl⟩ := nameNext?_eq_some.1 hnext
            obtain ⟨w, hw, rfl⟩ := map_ok.1 h
            refine .sigil ht hc hs hcs hm (ih _ ?_ hw rfl)
            simp only [Pieces.size]
            omega
          · rename_i hnext
            obtain ⟨w, hw, rfl⟩ := map_ok.1 h
            exact .text ⟨by simp [ht], by simp [ht], by simp [ht], by simp [ht, hc], fun _ _ _ _ => hnext⟩ (hrest hw)
        · rename_i hs
          rw [beq_iff_eq] at hs
          obtain ⟨w, hw, rfl⟩ := map_ok.1 h
          refine .text ⟨by simp [ht], by simp [ht], by simp [ht], by simp [ht, hc], fun d hd _ hsigil => ?_⟩ (hrest hw)
          rw [ht] at hd
          cases hd
          exact absurd hsigil hs
    · rename_i hu hs ha hd
      obtain ⟨w, hw, rfl⟩ := map_ok.1 h
      exact .text (.of_token rest hu hs ha hd) (hrest hw)
  | block opener bracket inner closer rest =>
    have hrest {w : Value} (hw : ofPieces sigil rest = .ok w) : ReadsAs sigil rest w :=
      ih rest.size (by simp only [Pieces.size]; omega) hw rfl
    rw [ofPieces] at h
    split at h
    · rename_i hv
      split at h
      · cases h
      · rename_i name hparts
        obtain ⟨w, hw, rfl⟩ := map_ok.1 h
        exact .var hv hparts (hrest hw)
      · rename_i name fallback hparts
        have hsize := size_varParts hparts
        obtain ⟨a, ha, h⟩ := bind_ok.1 h
        obtain ⟨w, hw, rfl⟩ := map_ok.1 h
        refine .guarded hv hparts (ih _ ?_ ha rfl) (hrest hw)
        simp only [Pieces.size]
        omega
    · rename_i hv
      obtain ⟨a, ha, h⟩ := bind_ok.1 h
      obtain ⟨w, hw, rfl⟩ := map_ok.1 h
      exact .block (by simpa using hv) (ih inner.size (by simp only [Pieces.size]; omega) ha rfl) (hrest hw)

theorem ReadsAs.ofPieces {p : Pieces} {v : Value} (h : ReadsAs sigil p v) : ofPieces sigil p = .ok v := by
  induction h with
  | done => rw [Value.ofPieces]
  | text ht _ ih =>
    rename_i l rest v
    rw [Value.ofPieces]
    split
    · rename_i s hs
      exact absurd hs (ht.badUrl s)
    · rename_i s hs
      exact absurd hs (ht.badString s)
    · rename_i name hname
      rw [if_neg (by simpa using ht.atKeyword name hname), ih]
      rfl
    · rename_i c hc
      split
      · rename_i hh
        rw [beq_iff_eq] at hh
        subst hh
        split
        · rename_i hnext
          rw [ht.hash hc] at hnext
          cases hnext
        · rw [ih]
          rfl
      · rename_i hh
        rw [beq_iff_eq] at hh
        split
        · rename_i hs
          rw [beq_iff_eq] at hs
          split
          · rename_i hnext
            rw [ht.sigil c hc hh hs] at hnext
            cases hnext
          · rw [ih]
            rfl
        · rw [ih]
          rfl
    · rw [ih]
      rfl
  | @interpolation l cs opener inner closer rest a b ht hcs _ _ iha ihb =>
    have hnext : curlyNext? (leaves cs (.block opener .curly inner closer rest)) = .some (inner, rest) :=
      curlyNext?_eq_some.2 ⟨cs, opener, closer, hcs, rfl⟩
    rw [Value.ofPieces]
    simp only [ht]
    rw [if_pos (beq_self_eq_true '#')]
    split
    · rename_i h
      cases hnext.symm.trans h
      rw [iha, ihb]
      rfl
    · rename_i h
      cases hnext.symm.trans h
  | atKeyword ht hs _ ih =>
    rw [Value.ofPieces]
    simp only [ht]
    rw [if_pos (by simp [hs]), ih]
    rfl
  | @sigil l c cs m name rest v ht hc hs hcs hm _ ih =>
    have hnext : nameNext? (leaves cs (.leaf m rest)) = .some (name, cs.flatMap (·.text) ++ m.text, rest) :=
      nameNext?_eq_some.2 ⟨cs, m, hcs, hm, rfl, rfl⟩
    rw [Value.ofPieces]
    simp only [ht]
    rw [if_neg (by simpa using hc), if_pos (by simp [hs])]
    split
    · rename_i h
      cases hnext.symm.trans h
      rw [ih]
      rfl
    · rename_i h
      cases hnext.symm.trans h
  | var hv hparts _ ih =>
    rw [Value.ofPieces, if_pos hv]
    split
    · rename_i h
      cases hparts.symm.trans h
    · rename_i h
      cases hparts.symm.trans h
      rw [ih]
      rfl
    · rename_i h
      cases hparts.symm.trans h
  | guarded hv hparts _ _ iha ih =>
    rw [Value.ofPieces, if_pos hv]
    split
    · rename_i h
      cases hparts.symm.trans h
    · rename_i h
      cases hparts.symm.trans h
    · rename_i h
      cases hparts.symm.trans h
      rw [iha, ih]
      rfl
  | block hv _ _ iha ih =>
    rw [Value.ofPieces, if_neg (by simp [hv]), iha, ih]
    rfl

/-- The rules are what the reader computes. -/
theorem readsAs_iff {p : Pieces} {v : Value} : ofPieces sigil p = .ok v ↔ ReadsAs sigil p v :=
  ⟨readsAs_of_ofPieces, ReadsAs.ofPieces⟩

end Value

end ThemeVars
