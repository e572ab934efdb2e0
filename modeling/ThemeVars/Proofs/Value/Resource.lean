/-
Values whose files are replaced. `writeAll_eq`: what the walk over a value does
is what is done for its parts, one after the other, whatever the answers do on
the way. So `rewriteResources_eq` and `resourcePaths_eq` say what comes of it
where nothing is done, and where the paths are taken down.
`rewriteResources_ne_empty`: whatever takes the place of a path, a value with a
text keeps one, since a path is always written with what stands around it.
-/
import Mathlib.Tactic.Common
import ThemeVars.Proofs.Outcome
import ThemeVars.Value.Resource

namespace ThemeVars

namespace ResourcePart

/-- The text that the part was read from. -/
def source : ResourcePart → String
  | .text s => s
  | .url _ raw => raw
  | .string _ raw => raw

/-- The file that the part names. -/
def path? : ResourcePart → Option String
  | .text _ => .none
  | .url path _ => .some path
  | .string path _ => .some path

/-- The part with its path replaced where `f` gives another. A string keeps
its quotes. -/
def rewrite (f : String → Option String) : ResourcePart → String
  | .text s => s
  | .url path raw =>
    match f path with
    | .some new => "url(" ++ new ++ ")"
    | .none => raw
  | .string path raw =>
    match f path with
    | .some new =>
      let quote := String.ofList (raw.toList.take 1)
      quote ++ new ++ quote
    | .none => raw

/-- The parts of a sequence; `inFiles` says that its strings name files. -/
def ofPieces (inFiles : Bool) : Pieces → Except ValueError (List ResourcePart)
  | .done => .ok []
  | .leaf l rest => do
    let part ← ofLexeme inFiles l
    let parts ← ofPieces inFiles rest
    return part :: parts
  | .block opener bracket inner _ rest => do
    let inner ← ofPieces (namesFiles opener.token) inner
    let rest ← ofPieces inFiles rest
    return .text (String.ofList opener.text) :: inner ++ .text bracket.closer :: rest

section

variable {m : Type → Type} [Monad m] (f : String → m (Option String))

/-- A part asks about the path that it names, and about nothing else. -/
theorem write_eq (part : ResourcePart) :
    part.write f = match part.path? with
      | .none => pure part.source
      | .some path => f path >>= fun new => pure (part.rewrite fun _ => new) := by
  cases part with
  | text s => rfl
  | url path raw =>
    simp only [write, path?, rewrite]
    congr
    funext new
    cases new <;> rfl
  | string path raw =>
    simp only [write, path?, rewrite]
    congr
    funext new
    cases new <;> rfl

theorem ofPieces_leaf_ok {inFiles : Bool} {l : Lexeme} {part : ResourcePart} (h : ofLexeme inFiles l = .ok part) (rest : Pieces) :
    ofPieces inFiles (.leaf l rest) = (ofPieces inFiles rest).map (part :: ·) := by
  rw [ofPieces, h]
  cases ofPieces inFiles rest <;> rfl

theorem ofPieces_block_ok {inFiles : Bool} {opener : Lexeme} {bracket : Bracket} {inner : Pieces} {parts : List ResourcePart}
    (h : ofPieces (namesFiles opener.token) inner = .ok parts) (closer : Option Lexeme) (rest : Pieces) :
    ofPieces inFiles (.block opener bracket inner closer rest) = (ofPieces inFiles rest).map fun others =>
      .text (String.ofList opener.text) :: parts ++ .text bracket.closer :: others := by
  rw [ofPieces, h]
  cases ofPieces inFiles rest <;> rfl

theorem writeAll_block (inFiles : Bool) (opener : Lexeme) (bracket : Bracket) (inner : Pieces) (closer : Option Lexeme)
    (rest : Pieces) :
    (writeAll f inFiles (.block opener bracket inner closer rest)).run =
      (writeAll f (namesFiles opener.token) inner).run >>= fun
        | .error e => pure (.error e)
        | .ok inner => (writeAll f inFiles rest).run >>= fun r =>
          pure (r.map fun rest => String.ofList opener.text ++ (inner ++ (bracket.closer ++ rest))) := by
  simp only [writeAll, ExceptT.run_bind, ExceptT.run_pure]
  congr 1
  funext r
  cases r with
  | error e => rfl
  | ok inner =>
    simp only
    congr 1
    funext r
    cases r <;> rfl

variable [LawfulMonad m]

theorem writeAll_leaf {inFiles : Bool} {l : Lexeme} {part : ResourcePart} (h : ofLexeme inFiles l = .ok part) (rest : Pieces) :
    (writeAll f inFiles (.leaf l rest)).run = part.write f >>= fun here =>
      (writeAll f inFiles rest).run >>= fun r => pure (r.map (here ++ ·)) := by
  have hlift (x : m String) : (liftM x : ExceptT ValueError m String).run = Except.ok <$> x := rfl
  simp only [writeAll, ExceptT.run_bind, ExceptT.run_mk, h, pure_bind, hlift, bind_map_left, ExceptT.run_pure]
  congr 1
  funext here
  congr 1
  funext r
  cases r <;> rfl

/-- The walk over pieces writes the parts up to the first that is not
well-formed, one after the other, and comes to what they come to. -/
theorem writeAll_eq (inFiles : Bool) (p : Pieces) :
    ∃ asked, (∀ parts, ofPieces inFiles p = .ok parts → parts = asked) ∧
      (writeAll f inFiles p).run = asked.mapM (write f) >>= fun texts =>
        pure ((ofPieces inFiles p).map fun _ => String.join texts) := by
  induction p generalizing inFiles with
  | done => exact ⟨[], fun _ h => by cases h; rfl, by simp [writeAll, ofPieces, Except.map]⟩
  | leaf l rest ih =>
    obtain ⟨asked, hparts, hrest⟩ := ih inFiles
    cases hl : ofLexeme inFiles l with
    | error e =>
      have hof : ofPieces inFiles (.leaf l rest) = .error e := by rw [ofPieces, hl]; rfl
      refine ⟨[], fun _ h => (by rw [hof] at h; cases h), ?_⟩
      rw [hof]
      simp [writeAll, hl, ExceptT.run_bind, Except.map]
    | ok part =>
      refine ⟨part :: asked, fun parts h => ?_, ?_⟩
      · rw [ofPieces_leaf_ok hl] at h
        obtain ⟨others, hothers, rfl⟩ := map_ok.1 h
        rw [hparts others hothers]
      · rw [writeAll_leaf f hl, hrest, ofPieces_leaf_ok hl, List.mapM_cons]
        simp only [bind_assoc, pure_bind]
        congr 1
        funext here
        congr 1
        funext texts
        cases ofPieces inFiles rest <;> simp [Except.map]
  | block opener bracket inner closer rest ihi ih =>
    obtain ⟨askedInner, hinnerParts, hinner⟩ := ihi (namesFiles opener.token)
    obtain ⟨asked, hparts, hrest⟩ := ih inFiles
    cases hi : ofPieces (namesFiles opener.token) inner with
    | error e =>
      have hof : ofPieces inFiles (.block opener bracket inner closer rest) = .error e := by rw [ofPieces, hi]; rfl
      refine ⟨askedInner, fun _ h => (by rw [hof] at h; cases h), ?_⟩
      rw [writeAll_block, hinner, hi, hof]
      simp [Except.map]
    | ok innerParts =>
      obtain rfl := hinnerParts innerParts hi
      refine ⟨.text (String.ofList opener.text) :: innerParts ++ .text bracket.closer :: asked, fun parts h => ?_, ?_⟩
      · rw [ofPieces_block_ok hi] at h
        obtain ⟨others, hothers, rfl⟩ := map_ok.1 h
        rw [hparts others hothers]
      · rw [writeAll_block, hinner, hi, hrest, ofPieces_block_ok hi]
        simp only [List.mapM_append, List.mapM_cons, List.cons_append, write, Except.map, bind_assoc, pure_bind]
        congr 1
        funext texts
        congr 1
        funext others
        cases ofPieces inFiles rest <;> simp [String.join_append]

end

/-- A part that is written as nothing was read from nothing. -/
theorem source_of_rewrite {f : String → Option String} {part : ResourcePart} (h : part.rewrite f = "") :
    part.source = "" := by
  cases part with
  | text s => exact h
  | url path raw =>
    simp only [rewrite] at h
    split at h
    · simp at h
    · exact h
  | string path raw =>
    simp only [rewrite] at h
    split at h
    · obtain ⟨hquote, -⟩ := String.append_eq_empty_iff.1 (String.append_eq_empty_iff.1 h).1
      have htake : raw.toList.take 1 = [] := by simpa using congrArg String.toList hquote
      rw [source, ← String.toList_eq_nil_iff]
      exact (List.take_eq_nil_iff.1 htake).resolve_left Nat.one_ne_zero
    · exact h

/-- A part was read from the text of its lexeme. -/
theorem source_ofLexeme {inFiles : Bool} {l : Lexeme} {part : ResourcePart} (h : ofLexeme inFiles l = .ok part) :
    part.source = String.ofList l.text := by
  unfold ofLexeme at h
  split at h
  · cases h
    rfl
  · cases h
    split
    · rfl
    · rfl
  · cases h
  · cases h
  · cases h
    rfl

/-- A lexeme outside of blocks is read as one part. -/
theorem ofPieces_leaf {inFiles : Bool} {l : Lexeme} {rest : Pieces} {parts : List ResourcePart}
    (h : ofPieces inFiles (.leaf l rest) = .ok parts) :
    ∃ part others, part.source = String.ofList l.text ∧ ofPieces inFiles rest = .ok others ∧ parts = part :: others := by
  obtain ⟨part, hpart, h⟩ := bind_ok.1 h
  obtain ⟨others, hothers, h⟩ := bind_ok.1 h
  cases h
  exact ⟨part, others, source_ofLexeme hpart, hothers, rfl⟩

theorem join_eq_empty {texts : List String} : String.join texts = "" ↔ ∀ text ∈ texts, text = "" := by
  induction texts with
  | nil => simp
  | cons text texts ih => rw [String.join_cons, String.append_eq_empty_iff, ih, List.forall_mem_cons]

/-- Parts that are written as nothing were read from nothing. -/
theorem text_of_join {f : String → Option String} {inFiles : Bool} {p : Pieces} {parts : List ResourcePart}
    (h : ofPieces inFiles p = .ok parts) (hjoin : String.join (parts.map (·.rewrite f)) = "") : p.text = [] := by
  rw [join_eq_empty, List.forall_mem_map] at hjoin
  induction p generalizing inFiles parts with
  | done => rfl
  | leaf l rest ih =>
    obtain ⟨part, others, hsource, hothers, rfl⟩ := ofPieces_leaf h
    obtain ⟨hpart, hjoin⟩ := List.forall_mem_cons.1 hjoin
    have hl : l.text = [] := by simpa [hsource] using source_of_rewrite hpart
    have hrest : rest.text = [] := ih hothers hjoin
    simp only [Pieces.text, Pieces.lexemes, List.flatMap_cons] at hrest ⊢
    rw [hl, hrest, List.append_nil]
  | block opener bracket inner closer rest ihi ihr =>
    -- the closing bracket is written in any case
    simp only [ofPieces] at h
    obtain ⟨inner', -, h⟩ := bind_ok.1 h
    obtain ⟨rest', -, h⟩ := bind_ok.1 h
    cases h
    have hcloser : bracket.closer = "" := hjoin (.text bracket.closer) (by simp)
    cases bracket <;> simp [Bracket.closer] at hcloser

end ResourcePart

namespace Value

/-- The parts of a value. -/
def resourceParts (value : String) : Except ValueError (List ResourcePart) :=
  ResourcePart.ofPieces false (.ofText value.toList)

/-- A value whose paths are replaced is its parts, each with its path replaced. -/
theorem rewriteResources_eq (f : String → Option String) (value : String) :
    rewriteResources f value = (resourceParts value).map fun parts => String.join (parts.map (·.rewrite f)) := by
  obtain ⟨asked, hparts, hrun⟩ := ResourcePart.writeAll_eq (m := Id) (fun path => pure (f path)) false (.ofText value.toList)
  have hwrite (part : ResourcePart) : part.write (m := Id) (fun path => pure (f path)) = pure (part.rewrite f) := by
    rw [ResourcePart.write_eq]
    cases part with
    | text s => rfl
    | url path raw => rfl
    | string path raw => rfl
  rw [rewriteResources, writeResources, hrun, funext hwrite, List.mapM_pure, pure_bind]
  change (ResourcePart.ofPieces false (.ofText value.toList)).map _ = (ResourcePart.ofPieces false (.ofText value.toList)).map _
  cases hp : ResourcePart.ofPieces false (.ofText value.toList) with
  | error e => rfl
  | ok parts =>
    rw [hparts parts hp]
    rfl

/-- Where paths are taken down, parts are written as they were read. -/
theorem run_recorded (parts : List ResourcePart) (found : List String) :
    (parts.mapM (ResourcePart.write recordPath)).run found =
      pure (parts.map ResourcePart.source, found ++ parts.filterMap ResourcePart.path?) := by
  induction parts generalizing found with
  | nil => simp
  | cons part parts ih =>
    have hpart : (part.write recordPath).run found = pure (part.source, found ++ part.path?.toList) := by
      cases part with
      | text s => simp [ResourcePart.write, ResourcePart.source, ResourcePart.path?]
      | url path raw => rfl
      | string path raw => rfl
    rw [List.mapM_cons, StateT.run_bind, hpart, pure_bind, StateT.run_bind, ih, pure_bind]
    cases hpath : part.path? <;> simp [hpath]

/-- The files that a value names are those of its parts. -/
theorem resourcePaths_eq (value : String) :
    resourcePaths value = (resourceParts value).map (·.filterMap ResourcePart.path?) := by
  obtain ⟨asked, hparts, hrun⟩ := ResourcePart.writeAll_eq recordPath false (.ofText value.toList)
  rw [resourcePaths, writeResources, hrun, StateT.run_bind, run_recorded]
  change (Except.map _ (Except.map _ (ResourcePart.ofPieces false (.ofText value.toList)))) = Except.map _ _
  cases hp : ResourcePart.ofPieces false (.ofText value.toList) with
  | error e => rw [resourceParts, hp]; rfl
  | ok parts =>
    rw [resourceParts, hp, hparts parts hp]
    rfl

/-- What takes the place of paths makes no value empty. -/
theorem rewriteResources_ne_empty {f : String → Option String} {value text : String}
    (h : rewriteResources f value = .ok text) (hvalue : value ≠ "") : text ≠ "" := by
  intro htext
  rw [rewriteResources_eq] at h
  obtain ⟨parts, hparts, hjoin⟩ := map_ok.1 h
  have hnil := ResourcePart.text_of_join hparts (hjoin.trans htext)
  rw [Pieces.text_ofText, String.toList_eq_nil_iff] at hnil
  exact hvalue hnil

end Value

end ThemeVars
