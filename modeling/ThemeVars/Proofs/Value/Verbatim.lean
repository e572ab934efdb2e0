/-
Values whose files are replaced, read from the front. `Enclosing` are the
blocks that are open between two lexemes; `partsIn` takes the lexemes one after
the other, with these blocks as its only state, and comes to what is made of the
pieces (`resourceParts_eq`). So whatever the nesting, the walk over a value asks
about its paths in their order, and writes the lexemes with the answers filled
in and the brackets that are missing at the end (`rewriteResources_verbatim`).
-/
import ThemeVars.Proofs.Value.Relocation

namespace ThemeVars

open ResourcePart

/-- A block that is open: its bracket, and whether the strings directly in it
name files. -/
structure Enclosing where
  bracket : Bracket
  namesFiles : Bool
deriving DecidableEq, Repr

namespace Enclosing

/-- The blocks that are open after a token, the innermost first. A bracket
closes the innermost block, if it is of its kind, and no other. -/
def next (blocks : List Enclosing) (t : Token) : List Enclosing :=
  match t.opens?, blocks with
  | .some bracket, _ => ⟨bracket, ResourcePart.namesFiles t⟩ :: blocks
  | .none, [] => []
  | .none, block :: outer => if t.isClosing block.bracket then outer else block :: outer

/-- The blocks that are open after some lexemes. -/
def after (blocks : List Enclosing) (ls : List Lexeme) : List Enclosing :=
  ls.foldl (fun blocks l => next blocks l.token) blocks

/-- Strings name files here. -/
def inFiles (blocks : List Enclosing) : Bool := blocks.head?.any (·.namesFiles)

/-- The brackets that close the blocks. -/
def closers (blocks : List Enclosing) : String := String.join (blocks.map (·.bracket.closer))

/-- The paths that lexemes name, in order: urls without quotes wherever they
stand, and strings directly in a block in which they name files. -/
def pathsIn : List Enclosing → List Lexeme → List String
  | _, [] => []
  | blocks, l :: ls =>
    match l.token with
    | .url path => path :: pathsIn blocks ls
    | .string path => if inFiles blocks then path :: pathsIn blocks ls else pathsIn blocks ls
    | t => pathsIn (next blocks t) ls

/-- What stands before and behind a path in a lexeme that names one. -/
def marks? (inFiles : Bool) (l : Lexeme) : Option (String × String) :=
  match l.token with
  | .url _ => .some ("url(", ")")
  | .string _ => if inFiles then .some (String.ofList (l.text.take 1), String.ofList (l.text.take 1)) else .none
  | _ => .none

/-- The text of lexemes with the answers about their paths, in order: a lexeme is
kept unless an answer takes the place of its path. Behind them stand the brackets
that are missing. -/
def filledIn : List Enclosing → List Lexeme → List (Option String) → String
  | blocks, [], _ => closers blocks
  | blocks, l :: ls, answers =>
    match marks? (inFiles blocks) l, answers with
    | .some (front, back), .some new :: answers => front ++ new ++ back ++ filledIn (next blocks l.token) ls answers
    | .some _, .none :: answers => String.ofList l.text ++ filledIn (next blocks l.token) ls answers
    | _, answers => String.ofList l.text ++ filledIn (next blocks l.token) ls answers

/-- The parts that lexemes are, and the brackets that are missing after them. -/
def partsIn : List Enclosing → List Lexeme → Except ValueError (List ResourcePart)
  | blocks, [] => .ok (blocks.map fun block => .text block.bracket.closer)
  | blocks, l :: ls => do
    let part ← ofLexeme (inFiles blocks) l
    let parts ← partsIn (next blocks l.token) ls
    return part :: parts

@[simp] theorem inFiles_cons (block : Enclosing) (outer : List Enclosing) :
    inFiles (block :: outer) = block.namesFiles := rfl

theorem partsIn_nil (blocks : List Enclosing) :
    partsIn blocks [] = pure (blocks.map fun block => .text block.bracket.closer) := rfl

/-! ## One lexeme -/

theorem next_opening {t : Token} {bracket : Bracket} (h : t.opens? = .some bracket) (blocks : List Enclosing) :
    next blocks t = ⟨bracket, ResourcePart.namesFiles t⟩ :: blocks := by
  simp only [next, h]

/-- Nothing is closed by a token that closes no bracket of the innermost kind. -/
theorem next_leaf {blocks : List Enclosing} {t : Token} (h : t.opens? = .none)
    (hl : ∀ block ∈ blocks.head?, t.isClosing block.bracket = false) : next blocks t = blocks := by
  cases blocks with
  | nil => simp only [next, h]
  | cons block outer => simp only [next, h, hl block rfl, Bool.false_eq_true, if_false]

theorem next_closing (block : Enclosing) (outer : List Enclosing) :
    next (block :: outer) (.closing block.bracket) = outer := by
  simp [next, Token.opens?, Token.isClosing]

theorem ofLexeme_opening {l : Lexeme} {bracket : Bracket} (h : l.token.opens? = .some bracket) (inFiles : Bool) :
    ofLexeme inFiles l = pure (.text (String.ofList l.text)) := by
  obtain ⟨token, text, start⟩ := l
  cases token <;> first | rfl | cases h

theorem ofLexeme_closing {l : Lexeme} {bracket : Bracket} (h : l.token = .closing bracket) (inFiles : Bool) :
    ofLexeme inFiles l = pure (.text (String.ofList l.text)) := by
  rw [ofLexeme, h]
  rfl

/-- A lexeme that is a part names what it is counted to name. -/
theorem ofLexeme_paths {blocks : List Enclosing} {l : Lexeme} {part : ResourcePart}
    (h : ofLexeme (inFiles blocks) l = .ok part) (ls : List Lexeme) :
    pathsIn blocks (l :: ls) = part.path?.toList ++ pathsIn (next blocks l.token) ls := by
  obtain ⟨token, text, start⟩ := l
  cases token
  case badUrl => cases h
  case badString => cases h
  case url =>
    cases h
    rw [next_leaf rfl fun _ _ => rfl]
    rfl
  case string =>
    cases h
    rw [next_leaf rfl fun _ _ => rfl]
    simp only [pathsIn]
    split
    · rfl
    · rfl
  all_goals
    cases h
    rfl

/-- It is written with the answer about its path, if it names one. -/
theorem ofLexeme_filled {blocks : List Enclosing} {l : Lexeme} {part : ResourcePart}
    (h : ofLexeme (inFiles blocks) l = .ok part) (ls : List Lexeme) (answers : List (Option String)) :
    (part.path? = .none → filledIn blocks (l :: ls) answers = part.source ++ filledIn (next blocks l.token) ls answers) ∧
      ∀ path, part.path? = .some path → ∀ new, filledIn blocks (l :: ls) (new :: answers) =
        part.rewrite (fun _ => new) ++ filledIn (next blocks l.token) ls answers := by
  obtain ⟨token, text, start⟩ := l
  cases token
  case badUrl => cases h
  case badString => cases h
  case url =>
    cases h
    refine ⟨fun hnone => ?_, fun path _ new => ?_⟩
    · cases hnone
    · cases new <;> rfl
  case string =>
    cases h
    split
    · rename_i hfiles
      refine ⟨fun hnone => ?_, fun path _ new => ?_⟩
      · cases hnone
      · cases new <;> simp [filledIn, marks?, hfiles, rewrite]
    · rename_i hfiles
      refine ⟨fun _ => ?_, fun path hsome => ?_⟩
      · simp [filledIn, marks?, hfiles, source]
      · cases hsome
  all_goals
    cases h
    refine ⟨fun _ => rfl, fun path hsome => ?_⟩
    cases hsome

/-- Urls and strings that are not well-formed are all that is not accepted. -/
theorem ofLexeme_isOk (inFiles : Bool) (l : Lexeme) :
    (∃ part, ofLexeme inFiles l = .ok part) ↔ ∀ s, l.token ≠ .badUrl s ∧ l.token ≠ .badString s := by
  obtain ⟨token, text, start⟩ := l
  cases token <;> simp [ofLexeme]

/-! ## All lexemes -/

/-- The walk over pieces is the walk over their lexemes; if the pieces leave a
block open, nothing follows them. -/
theorem partsIn_lexemes {p : Pieces} (hm : p.Matched) (hs : Sheet.AllSpelled p) {blocks : List Enclosing}
    (hl : ∀ block ∈ blocks.head?, p.Lacks block.bracket) {ls : List Lexeme} (h : p.Closed ∨ ls = []) :
    partsIn blocks (p.lexemes ++ ls) =
      ofPieces (inFiles blocks) p >>= fun parts => partsIn blocks ls >>= fun others => pure (parts ++ others) := by
  induction p generalizing blocks ls with
  | done => exact (bind_pure _).symm
  | leaf l rest ih =>
    have hnext := next_leaf hm.1 fun block hb => (hl block hb).1
    rw [Pieces.lexemes, List.cons_append, partsIn, hnext, ih hm.2 hs.leaf.2 (fun block hb => (hl block hb).2) h,
      ofPieces_leaf_eq]
    simp only [bind_assoc, pure_bind, List.cons_append]
  | block opener bracket inner closer rest ihi ih =>
    obtain ⟨hopens, hlacks, hminner, hcloser, hnone, hmrest⟩ := hm
    obtain ⟨-, hsinner, hscloser, hsrest⟩ := hs.block
    -- inside, the block is the innermost that is open
    obtain ⟨blocks', hblocks⟩ : ∃ blocks', blocks' = ⟨bracket, ResourcePart.namesFiles opener.token⟩ :: blocks := ⟨_, rfl⟩
    have hlacks' : ∀ block ∈ blocks'.head?, inner.Lacks block.bracket := by
      rw [hblocks]
      exact fun block hb => Option.some.inj hb ▸ hlacks
    rw [Pieces.lexemes, List.cons_append, List.cons_append, List.cons_append, partsIn, ofLexeme_opening hopens,
      next_opening hopens, ← hblocks, List.append_assoc, List.append_assoc, ofPieces]
    cases closer with
    | none =>
      obtain rfl : ls = [] := h.resolve_left fun hclosed => hclosed.2.1 rfl
      obtain rfl := hnone rfl
      have hinner := ihi hminner hsinner hlacks' (.inr rfl)
      rw [Option.toList_none, Pieces.lexemes, List.append_nil, List.nil_append, hinner, hblocks, partsIn_nil, partsIn_nil,
        show ofPieces (inFiles blocks) .done = pure [] from rfl]
      simp only [bind_assoc, pure_bind, inFiles_cons, List.map_cons, List.cons_append, List.append_assoc, List.nil_append]
    | some l =>
      obtain ⟨htoken, hclosed⟩ := hcloser l rfl
      have htext : l.text = bracket.closer.toList := (htoken ▸ hscloser l rfl : Spelled (.closing bracket) l.text).closing
      rw [Option.toList_some, List.singleton_append, ihi hminner hsinner hlacks' (.inl hclosed), hblocks, partsIn,
        ofLexeme_closing htoken, htoken, next_closing ⟨bracket, _⟩, ih hmrest hsrest hl (h.imp_left fun hc => hc.2.2),
        htext, String.ofList_toList]
      simp only [bind_assoc, pure_bind, inFiles_cons, List.cons_append, List.append_assoc]

/-- The lexemes are accepted unless one of them is not well-formed. -/
theorem partsIn_isOk (blocks : List Enclosing) (ls : List Lexeme) :
    (∃ parts, partsIn blocks ls = .ok parts) ↔
      ∀ l ∈ ls, ∀ s, l.token ≠ .badUrl s ∧ l.token ≠ .badString s := by
  induction ls generalizing blocks with
  | nil => exact ⟨fun _ _ h => (nomatch h), fun _ => ⟨_, rfl⟩⟩
  | cons l ls ih =>
    rw [List.forall_mem_cons, ← ofLexeme_isOk (inFiles blocks) l, ← ih (next blocks l.token)]
    constructor
    · rintro ⟨parts, hparts⟩
      obtain ⟨part, hpart, hparts⟩ := bind_ok.1 hparts
      obtain ⟨others, hothers, -⟩ := bind_ok.1 hparts
      exact ⟨⟨part, hpart⟩, others, hothers⟩
    · rintro ⟨⟨part, hpart⟩, others, hothers⟩
      exact ⟨part :: others, bind_ok.2 ⟨part, hpart, bind_ok.2 ⟨others, hothers, rfl⟩⟩⟩

/-- Where no path is replaced, lexemes are kept. -/
theorem filledIn_none (blocks : List Enclosing) (ls : List Lexeme) {answers : List (Option String)}
    (h : ∀ answer ∈ answers, answer = .none) :
    filledIn blocks ls answers = String.ofList (ls.flatMap (·.text)) ++ closers (after blocks ls) := by
  induction ls generalizing blocks answers with
  | nil => rw [List.flatMap_nil, String.ofList_nil, String.empty_append, filledIn, after, List.foldl_nil]
  | cons l ls ih =>
    have hstep (answers : List (Option String)) (h : ∀ answer ∈ answers, answer = .none) :
        String.ofList l.text ++ filledIn (next blocks l.token) ls answers =
          String.ofList ((l :: ls).flatMap (·.text)) ++ closers (after blocks (l :: ls)) := by
      rw [ih _ h, List.flatMap_cons, String.ofList_append, String.append_assoc]
      rfl
    simp only [filledIn]
    split
    · cases h _ List.mem_cons_self
    · exact hstep _ fun answer ha => h answer (List.mem_cons_of_mem _ ha)
    · exact hstep _ h

/-- The parts name what the lexemes name. -/
theorem paths_partsIn {blocks : List Enclosing} {ls : List Lexeme} {parts : List ResourcePart}
    (h : partsIn blocks ls = .ok parts) : parts.filterMap path? = pathsIn blocks ls := by
  induction ls generalizing blocks parts with
  | nil =>
    cases h
    exact List.filterMap_eq_nil_iff.2 fun part hpart => by
      obtain ⟨block, -, rfl⟩ := List.mem_map.1 hpart
      rfl
  | cons l ls ih =>
    obtain ⟨part, hpart, h⟩ := bind_ok.1 h
    obtain ⟨others, hothers, h⟩ := bind_ok.1 h
    cases h
    rw [ofLexeme_paths hpart ls, ← ih hothers, List.filterMap_cons]
    cases part.path? <;> rfl

/-- To write the parts is to ask about the paths of the lexemes, and to fill in
what is answered. -/
theorem mapM_write_partsIn {m : Type → Type} [Monad m] [LawfulMonad m] (f : String → m (Option String))
    {blocks : List Enclosing} {ls : List Lexeme} {parts : List ResourcePart} (h : partsIn blocks ls = .ok parts) :
    (parts.mapM (write f) >>= fun texts => pure (String.join texts)) =
      (pathsIn blocks ls).mapM f >>= fun answers => pure (filledIn blocks ls answers) := by
  induction ls generalizing blocks parts with
  | nil =>
    cases h
    have hclosers (blocks : List Enclosing) :
        (blocks.map fun block => ResourcePart.text block.bracket.closer).mapM (write f) =
          pure (blocks.map (·.bracket.closer)) := by
      rw [List.mapM_map]
      exact List.mapM_pure
    rw [hclosers, pure_bind, pathsIn, List.mapM_nil, pure_bind]
    rfl
  | cons l ls ih =>
    obtain ⟨part, hpart, h⟩ := bind_ok.1 h
    obtain ⟨others, hothers, h⟩ := bind_ok.1 h
    cases h
    have hrest (here : String) : (others.mapM (write f) >>= fun texts => pure (String.join (here :: texts))) =
        (pathsIn (next blocks l.token) ls).mapM f >>= fun answers => pure (here ++ filledIn (next blocks l.token) ls answers) := by
      have := congrArg (· >>= fun rest => pure (here ++ rest)) (ih hothers)
      simpa only [bind_assoc, pure_bind, String.join_cons] using this
    rw [List.mapM_cons, bind_assoc, write_eq, ofLexeme_paths hpart ls]
    simp only [bind_assoc, pure_bind, hrest]
    cases hpath : part.path? with
    | none => simp only [pure_bind, Option.toList_none, List.nil_append, (ofLexeme_filled hpart ls _).1 hpath]
    | some path =>
      simp only [bind_assoc, pure_bind, Option.toList_some, List.singleton_append, List.mapM_cons,
        (ofLexeme_filled hpart ls _).2 path hpath]

end Enclosing

namespace Value

/-- The blocks that are open at the end of the value, the innermost first. -/
def openAtEnd (value : String) : List Enclosing := Enclosing.after [] (lexemes value.toList)

/-- The paths that the lexemes of the value name where they stand. -/
def pathsInOrder (value : String) : List String := Enclosing.pathsIn [] (lexemes value.toList)

/-- A value is cut into the parts that its lexemes are, one after the other. -/
theorem resourceParts_eq (value : String) : resourceParts value = Enclosing.partsIn [] (lexemes value.toList) := by
  have hs : Sheet.AllSpelled (.ofText value.toList) := by
    intro l hl
    rw [Pieces.ofText, Pieces.lexemes_ofLexemes] at hl
    exact ((tiled_lexemes _).reads hl).choose_spec.spelled
  have hnone : ∀ block ∈ ([] : List Enclosing).head?, Pieces.Lacks block.bracket (.ofText value.toList) := by simp
  have h := Enclosing.partsIn_lexemes (Pieces.matched_ofLexemes _) hs hnone (.inr rfl)
  rw [List.append_nil, Pieces.lexemes_ofLexemes, Enclosing.partsIn_nil] at h
  simp only [List.map_nil, pure_bind, List.append_nil, bind_pure] at h
  exact h.symm

/-- The value with the answers about its paths, in order, and with the brackets
that it lacks. -/
def filled (value : String) (answers : List (Option String)) : String := Enclosing.filledIn [] (lexemes value.toList) answers

/-- The walk over a value that is cut into parts. -/
theorem run_writeResources {m : Type → Type} [Monad m] [LawfulMonad m] (f : String → m (Option String)) {value : String}
    {parts : List ResourcePart} (h : resourceParts value = .ok parts) :
    (writeResources f value).run = (pathsInOrder value).mapM f >>= fun answers => pure (.ok (filled value answers)) := by
  obtain ⟨asked, hasked, hrun⟩ := writeAll_eq f false (.ofText value.toList)
  obtain rfl := hasked parts h
  have hwrite := Enclosing.mapM_write_partsIn f ((resourceParts_eq value).symm.trans h)
  have hok := congrArg (· >>= fun text => pure (Except.ok (ε := ValueError) text)) hwrite
  simp only [bind_assoc, pure_bind] at hok
  rw [writeResources, hrun, show ResourcePart.ofPieces false (.ofText value.toList) = .ok parts from h]
  exact hok

/-- A value is accepted if its urls and strings are well-formed. Then the walk
over it asks about each url without quotes, and each string directly in a block
that names files, in the order of the value, and writes the value with what is
answered; whatever the asking does besides is done in that order too. Where no
path is replaced the value is kept, and the blocks that are open at its end are
closed, the innermost first. -/
theorem rewriteResources_verbatim {m : Type → Type} [Monad m] [LawfulMonad m] (f : String → m (Option String))
    (g : String → Option String) (value : String) :
    ((∃ out, rewriteResources g value = .ok out) ↔
        ∀ l ∈ lexemes value.toList, ∀ s, l.token ≠ .badUrl s ∧ l.token ≠ .badString s) ∧
      ∀ out, rewriteResources g value = .ok out →
        (writeResources f value).run =
            ((pathsInOrder value).mapM f >>= fun answers => pure (.ok (filled value answers))) ∧
          out = filled value ((pathsInOrder value).map g) ∧
          resourcePaths value = .ok (pathsInOrder value) ∧
          (∀ answers, (∀ answer ∈ answers, answer = .none) →
            filled value answers = value ++ Enclosing.closers (openAtEnd value)) ∧
          rewriteResources (fun _ => .none) value = .ok (value ++ Enclosing.closers (openAtEnd value)) := by
  have haccepted (g : String → Option String) :
      (∃ out, rewriteResources g value = .ok out) ↔ ∃ parts, resourceParts value = .ok parts := by
    rw [rewriteResources_eq]
    constructor
    · rintro ⟨out, hout⟩
      obtain ⟨parts, hparts, -⟩ := map_ok.1 hout
      exact ⟨parts, hparts⟩
    · rintro ⟨parts, hparts⟩
      exact ⟨_, map_ok.2 ⟨parts, hparts, rfl⟩⟩
  refine ⟨(haccepted g).trans (resourceParts_eq value ▸ Enclosing.partsIn_isOk [] _), fun out hout => ?_⟩
  obtain ⟨parts, hparts⟩ := (haccepted g).1 ⟨out, hout⟩
  have hpure (g : String → Option String) : rewriteResources g value = .ok (filled value ((pathsInOrder value).map g)) := by
    have hrun := run_writeResources (m := Id) (fun path => pure (g path)) hparts
    rw [List.mapM_pure, pure_bind] at hrun
    exact hrun
  have hnone (answers : List (Option String)) (h : ∀ answer ∈ answers, answer = .none) :
      filled value answers = value ++ Enclosing.closers (openAtEnd value) := by
    rw [filled, Enclosing.filledIn_none [] _ h, lexemes_text, String.ofList_toList]
    rfl
  refine ⟨run_writeResources f hparts, Except.ok.inj (hout.symm.trans (hpure g)), ?_, hnone, ?_⟩
  · rw [resourcePaths_eq, hparts]
    exact congrArg Except.ok (Enclosing.paths_partsIn ((resourceParts_eq value).symm.trans hparts))
  · rw [hpure, hnone _ (by simp)]

/-- Blocks of every kind, one in the other and open, with a bracket that closes
none of them; the string in the parentheses names no file. One who takes down
what is asked, and has another file for the first alone, is asked about both. -/
theorem rewriteResources_verbatim_open :
    rewriteResources (fun _ => .none) "] image-set('a.png', ('b' [url(c.png) \x7d" =
        .ok "] image-set('a.png', ('b' [url(c.png) \x7d]))" ∧
      resourcePaths "] image-set('a.png', ('b' [url(c.png) \x7d" = .ok ["a.png", "c.png"] ∧
      ((writeResources (m := StateM (List String))
            (fun path => modifyGet fun asked => (if path = "a.png" then .some "d.png" else .none, asked ++ [path]))
            "] image-set('a.png', ('b' [url(c.png) \x7d").run.run []) =
        (.ok "] image-set('d.png', ('b' [url(c.png) \x7d]))", ["a.png", "c.png"]) := by
  have h := (rewriteResources_verbatim (m := StateM (List String))
    (fun path => modifyGet fun asked => (if path = "a.png" then .some "d.png" else .none, asked ++ [path]))
    (fun _ => .none) "] image-set('a.png', ('b' [url(c.png) \x7d").2
    "] image-set('a.png', ('b' [url(c.png) \x7d]))" (by decide +kernel)
  have hpaths : pathsInOrder "] image-set('a.png', ('b' [url(c.png) \x7d" = ["a.png", "c.png"] := by decide +kernel
  have hopen : Enclosing.closers (openAtEnd "] image-set('a.png', ('b' [url(c.png) \x7d") = "]))" := by decide +kernel
  have hfilled : filled "] image-set('a.png', ('b' [url(c.png) \x7d" [.some "d.png", .none] =
      "] image-set('d.png', ('b' [url(c.png) \x7d]))" := by decide +kernel
  obtain ⟨hrun, -, hasked, -, hkept⟩ := h
  rw [hopen] at hkept
  rw [hpaths] at hasked hrun
  refine ⟨hkept, hasked, ?_⟩
  rw [hrun]
  exact congrArg (fun text => (Except.ok text, ["a.png", "c.png"])) hfilled

end Value

end ThemeVars
