/-
Values written for other files. `relocate_resourcePaths`: a value that is
relocated names the files that it named, each as the other file has to name it.
A path is written as it is, without escapes; where it needs one, the value goes
wrong (`relocate_unescaped`).
-/
import ThemeVars.Proofs.Path.Directory
import ThemeVars.Proofs.Value.Relocation
import ThemeVars.Variable.Relocation

namespace ThemeVars

namespace Relocations

variable {memo memo' : Relocations} {u v : Variable} {urls : RelativeUrls} {target : Path} {w : String}

/-- What takes the place of a path where the value is written in the target
file. -/
def move (urls : RelativeUrls) (target : Path) (path : String) : Option String :=
  if path ∈ urls.paths then Path.relocate? path urls.origin target else .none

theorem compute_ok : compute v urls target = .ok w ↔ Value.rewriteResources (move urls target) v.resolved = .ok w := by
  unfold compute move
  simp only [List.contains_iff_mem, mapError_ok]

/-- For paths that are the same, a value is written in the same way. -/
theorem compute_of_same {target' : Path} (h : target.same target' = true) : compute v urls target = compute v urls target' := by
  simp only [compute, Path.relocate?_of_same h]

/-! ## The memo -/

theorem relocate_known (hurls : v.urls = .some urls) (hw : memo.find? v.ident target = .some w) :
    memo.relocate v (.some target) = .ok (w, memo) := by
  simp only [relocate, hurls, hw]

theorem relocate_new (hurls : v.urls = .some urls) (hnone : memo.find? v.ident target = .none)
    (hw : compute v urls target = .ok w) :
    memo.relocate v (.some target) = .ok (w, ⟨((v.ident, target), w) :: memo.entries⟩) := by
  simp only [relocate, hurls, hnone, hw]
  rfl

/-- Relocation for a file finds all that the memo has for the file already. -/
theorem find?_relocate (hw : memo.relocate v (.some target) = .ok (w, memo')) {ident : Ident} {x : String}
    (hx : memo.find? ident target = .some x) : memo'.find? ident target = .some x := by
  rcases hurls : v.urls with _ | urls
  · simp only [relocate, hurls] at hw
    cases hw
    exact hx
  · rcases hfind : memo.find? v.ident target with _ | y
    · simp only [relocate, hurls, hfind] at hw
      obtain ⟨y, -, hy⟩ := map_ok.1 hw
      cases hy
      have hne : v.ident ≠ ident := fun he => by simp [he, hx] at hfind
      simpa [find?, hne] using hx
    · cases (relocate_known hurls hfind).symm.trans hw
      exact hx

/-- A memo that has all that relocation left for the file gives it again, and
does not grow. -/
theorem relocate_again {file : Option Path} {later : Relocations} (hw : memo.relocate v file = .ok (w, memo'))
    (hlater : ∀ target ident x, file = .some target → memo'.find? ident target = .some x →
      later.find? ident target = .some x) : later.relocate v file = .ok (w, later) := by
  rcases hurls : v.urls with _ | urls
  · simp only [relocate, hurls] at hw ⊢
    cases hw
    rfl
  · rcases file with _ | target
    · simp only [relocate, hurls] at hw ⊢
      cases hw
      rfl
    · refine relocate_known hurls (hlater target v.ident w rfl ?_)
      rcases hfind : memo.find? v.ident target with _ | y
      · simp only [relocate, hurls, hfind] at hw
        obtain ⟨y, -, hy⟩ := map_ok.1 hw
        cases hy
        simp [find?, Path.same]
      · cases (relocate_known hurls hfind).symm.trans hw
        exact hfind

/-- A memo that such variables have been relocated with, each for any file. -/
inductive Filled (P : Variable → Prop) : Relocations → Prop
  | empty : Filled P {}
  | relocate {memo memo' : Relocations} {v : Variable} {target : Option Path} {w : String} (h : Filled P memo) (hv : P v)
      (hw : memo.relocate v target = .ok (w, memo')) : Filled P memo'

/-- What the memo holds of the variable is what relocation gives. -/
def Tells (memo : Relocations) (v : Variable) : Prop :=
  ∀ urls target w, v.urls = .some urls → memo.find? v.ident target = .some w → compute v urls target = .ok w

/-- No relocation makes the memo tell anything else, of variables whose idents
are their own. -/
theorem Tells.relocate {file : Option Path} (h : memo.Tells v) (hu : u.ident = v.ident → u = v)
    (hw : memo.relocate u file = .ok (w, memo')) : memo'.Tells v := by
  unfold Relocations.relocate at hw
  split at hw
  · rename_i urls target hurls
    split at hw
    · cases hw
      exact h
    · obtain ⟨x, hx, hw⟩ := map_ok.1 hw
      cases hw
      intro urls' target' y hurls' hy
      simp only [find?, List.find?_cons] at hy
      split at hy
      · rename_i hkey
        rw [Bool.and_eq_true, beq_iff_eq] at hkey
        obtain rfl := hu hkey.1
        cases hurls.symm.trans hurls'
        cases hy
        rw [← compute_of_same hkey.2, hx]
      · exact h urls' target' y hurls' hy
  · cases hw
    exact h

theorem Filled.tells (h : Filled (fun u => u.ident = v.ident → u = v) memo) : memo.Tells v := by
  induction h with
  | empty => intro urls target w _ hw; cases hw
  | relocate _ hu hw ih => exact ih.relocate hu hw

/-- Such a memo makes no difference to the value. -/
theorem Tells.compute_of_relocate (h : memo.Tells v) (hurls : v.urls = .some urls)
    (hw : memo.relocate v (.some target) = .ok (w, memo')) : compute v urls target = .ok w := by
  unfold Relocations.relocate at hw
  rw [hurls] at hw
  simp only at hw
  split at hw
  · rename_i hx
    cases hw
    exact h urls target _ hurls hx
  · obtain ⟨x, hx, hw⟩ := map_ok.1 hw
    cases hw
    exact hx

/-! ## The paths -/

/-- A value that is relocated names the same files in the same order: each path
that is kept of it as the target file has to write it, every other as before.
That is so where no path that changes needs an escape in the place where it is
written, and where closing brackets can be written at the end of the value. -/
theorem relocate_resourcePaths (hmemo : Filled (fun u => u.ident = v.ident → u = v) memo) (hurls : v.urls = .some urls)
    (hfits : Value.PathsFit (move urls target) v.resolved) (hclosers : Value.TakesClosers v.resolved)
    (hw : memo.relocate v (.some target) = .ok (w, memo')) :
    ∃ paths, Value.resourcePaths v.resolved = .ok paths ∧
      Value.resourcePaths w =
        .ok (paths.map fun path =>
          if path ∈ urls.paths then (Path.relocate? path urls.origin target).getD path else path) := by
  have hrewrite := compute_ok.1 (hmemo.tells.compute_of_relocate hurls hw)
  obtain ⟨paths, hpaths, hnew⟩ := Value.resourcePaths_rewrite hfits hclosers hrewrite
  refine ⟨paths, hpaths, hnew.trans ?_⟩
  congr 2
  funext path
  unfold move
  split
  · rfl
  · rfl

/-- Two files beside the theme, one of them in a set of images, and one at the
root. -/
def backdrop : Variable where
  ident := ⟨"--backdrop"⟩
  name := "--backdrop"
  raw := "URL( ./a.png ), image-set('b c.png' 1x, \"/d.png\" 2x)"
  resolved := "URL( ./a.png ), image-set('b c.png' 1x, \"/d.png\" 2x)"
  urls := .some ⟨⟨"/p/theme/theme.css"⟩, ["./a.png", "b c.png"]⟩

/-- From a memo that knows the value by another text of the target's path. -/
theorem relocate_resourcePaths_backdrop :
    ∃ paths, Value.resourcePaths backdrop.resolved = .ok paths ∧
      Value.resourcePaths "url(../theme/a.png), image-set('../theme/b c.png' 1x, \"/d.png\" 2x)" =
        .ok (paths.map fun path =>
          if path ∈ ["./a.png", "b c.png"] then (Path.relocate? path ⟨"/p/theme/theme.css"⟩ ⟨"/p/b/a.css"⟩).getD path
          else path) := by
  have hcompute : compute backdrop ⟨⟨"/p/theme/theme.css"⟩, ["./a.png", "b c.png"]⟩ ⟨"/p/b//a.css"⟩ =
      .ok "url(../theme/a.png), image-set('../theme/b c.png' 1x, \"/d.png\" 2x)" := by
    decide +kernel
  have hmemo := Filled.relocate (P := fun u => u.ident = backdrop.ident → u = backdrop) .empty (fun _ => rfl)
    (relocate_new rfl rfl hcompute)
  have hparts : Value.resourceParts backdrop.resolved =
      .ok [.url "./a.png" "URL( ./a.png )", .text ",", .text " ", .text "image-set(", .string "b c.png" "'b c.png'",
        .text " ", .text "1x", .text ",", .text " ", .string "/d.png" "\"/d.png\"", .text " ", .text "2x", .text ")"] := by
    decide +kernel
  have hmove : ["./a.png", "b c.png", "/d.png"].map (move ⟨⟨"/p/theme/theme.css"⟩, ["./a.png", "b c.png"]⟩ ⟨"/p/b/a.css"⟩) =
      [.some "../theme/a.png", .some "../theme/b c.png", .none] := by
    decide +kernel
  have hfits : Value.PathsFit (move ⟨⟨"/p/theme/theme.css"⟩, ["./a.png", "b c.png"]⟩ ⟨"/p/b/a.css"⟩) backdrop.resolved := by
    intro parts h
    cases hparts.symm.trans h
    simp only [List.map_cons, List.map_nil, List.cons.injEq] at hmove
    have hurl : FitsUrl "../theme/a.png".toList := by decide
    have hquotes : FitsQuotes '\'' "../theme/b c.png".toList := by decide
    simpa [ResourcePart.Fits, hmove] using And.intro hurl hquotes
  have hclosed : (Pieces.ofText backdrop.resolved.toList).Closed := by decide +kernel
  exact relocate_resourcePaths hmemo rfl hfits (Value.takesClosers_of_closed backdrop.resolved hclosed)
    (relocate_known rfl (by decide +kernel))

/-- A path that had an escape is written without it: where a url was is none. -/
theorem relocate_unescaped :
    RelativeUrls.ofValue "url(a\\ b.png)" (.some ⟨"/p/theme/theme.css"⟩) =
        .ok (.some ⟨⟨"/p/theme/theme.css"⟩, ["a b.png"]⟩) ∧
      (relocate {} { backdrop with
          resolved := "url(a\\ b.png)", urls := .some ⟨⟨"/p/theme/theme.css"⟩, ["a b.png"]⟩ }
        (.some ⟨"/p/pages/a.css"⟩)).map (·.1) = .ok "url(../theme/a b.png)" ∧
      Path.relocate? "a b.png" ⟨"/p/theme/theme.css"⟩ ⟨"/p/pages/a.css"⟩ = .some "../theme/a b.png" ∧
      Value.resourcePaths "url(../theme/a b.png)" = .error ⟨.badUrl "../theme/a b.png", 21⟩ := by
  decide +kernel

end Relocations

end ThemeVars
