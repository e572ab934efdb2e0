/-
File paths as texts and as lists of components. Two paths are the same if
their components are, so that repeated and trailing slashes and inner dots do
not count.
-/

namespace ThemeVars

/-- One step of a path: the root, a leading dot, a pair of dots, or a name. -/
inductive Component where
  | root
  | here
  | up
  | name (s : String)
deriving DecidableEq, Repr

def Component.text : Component → String
  | .root => "/"
  | .here => "."
  | .up => ".."
  | .name s => s

/-- A path as it is written. -/
structure Path where
  text : String
deriving DecidableEq, Repr

namespace Path

/-- The texts between the slashes. -/
def segments : List Char → List (List Char)
  | [] => [[]]
  | c :: cs => if c == '/' then [] :: segments cs else (segments cs).modifyHead (c :: ·)

/-- Stands for no step: nothing, or a dot. -/
def isIdle (segment : List Char) : Bool := segment.isEmpty || segment == ['.']

def step (segment : List Char) : Component :=
  if segment == ['.', '.'] then .up else .name (String.ofList segment)

/-- The components between and after the slashes, idle segments left out. -/
def steps (body : List Char) : List Component :=
  ((segments body).filter fun s => !isIdle s).map step

/-- The start of a path, a slash or a leading dot, and what follows it. -/
def splitStart (s : List Char) : List Component × List Char × List Char :=
  match s with
  | '/' :: rest => ([.root], ['/'], rest)
  | ['.'] => ([.here], ['.'], [])
  | '.' :: '/' :: rest => ([.here], ['.'], '/' :: rest)
  | _ => ([], [], s)

def components (p : Path) : List Component :=
  let (start, _, body) := splitStart p.text.toList
  start ++ steps body

/-- Equal components. -/
def same (p q : Path) : Bool := p.components == q.components

/-- The paths that are not the same as `p`. -/
def others (p : Path) (ps : List Path) : List Path := ps.filter fun q => !q.same p

theorem length_others_lt {p : Path} {ps : List Path} (h : ps.any (·.same p) = true) :
    (p.others ps).length < ps.length := by
  rw [List.any_eq_true] at h
  obtain ⟨q, hq, hs⟩ := h
  exact List.length_filter_lt_length_iff_exists.2 ⟨q, hq, by simp [hs]⟩

def isAbsolute (p : Path) : Bool := p.text.toList.head? == .some '/'

/-- The path with another after it. An absolute one takes its place. -/
def join (p q : Path) : Path :=
  if q.isAbsolute || p.text.isEmpty then q
  else if p.text.toList.getLast? == .some '/' then ⟨p.text ++ q.text⟩
  else ⟨p.text ++ "/" ++ q.text⟩

/-- The path that is written with these components. -/
def ofComponents (cs : List Component) : Path := cs.foldl (fun p c => p.join ⟨c.text⟩) ⟨""⟩

def dropIdleEnd (segments : List (List Char)) : List (List Char) :=
  (segments.reverse.dropWhile isIdle).reverse

/-- The path without its last component, the text before it kept. -/
def parent? (p : Path) : Option Path :=
  let (start, lead, body) := splitStart p.text.toList
  match dropIdleEnd (segments body) with
  | [] => if start == [.here] then .some ⟨""⟩ else .none
  | kept => .some ⟨String.ofList (lead ++ ['/'].intercalate (dropIdleEnd kept.dropLast))⟩

/-- The directory that holds the file. -/
def directory (p : Path) : Path := p.parent?.getD ⟨""⟩

/-- The last component, if it is a name. -/
def fileName? (p : Path) : Option String :=
  match p.components.getLast? with
  | .some (.name s) => .some s
  | _ => .none

/-- What follows the last dot of the file name, where something stands before
the dot. -/
def extension? (p : Path) : Option String :=
  match p.fileName? with
  | .none => .none
  | .some name =>
    let backwards := name.toList.reverse
    match backwards.dropWhile (· != '.') with
    | _ :: _ :: _ => .some (String.ofList (backwards.takeWhile (· != '.')).reverse)
    | _ => .none

/-- The path with another name for its file. -/
def withFileName (p : Path) (name : String) : Path :=
  if p.fileName?.isSome then p.directory.join ⟨name⟩ else p.join ⟨name⟩

/-- One step further in a normal path: a pair of dots takes a name away, and
stays only where nothing stands before it. -/
def normalStep (out : List Component) (c : Component) : List Component :=
  match c with
  | .here => out
  | .up =>
    match out.getLast? with
    | .some (.name _) => out.dropLast
    | .some .root => out
    | _ => out ++ [.up]
  | c => out ++ [c]

/-- The path without idle components, as far as its text tells. -/
def normalize (p : Path) : Path := ofComponents (p.components.foldl normalStep [])

/-- The number of components that both lists begin with. -/
def commonLength : List Component → List Component → Nat
  | a :: as, b :: bs => if a == b then commonLength as bs + 1 else 0
  | _, _ => 0

/-- The path of `target` as seen from the directory `base`, both normal. -/
def relativeTo (base target : Path) : Path :=
  let common := commonLength base.components target.components
  ofComponents (List.replicate (base.components.length - common) .up ++ target.components.drop common)

example : (Path.mk "x/.//y/./b/").parent? = .some ⟨"x/.//y"⟩ := by decide +kernel
example : (Path.mk "//a").parent? = .some ⟨"/"⟩ := by decide +kernel
example : (Path.mk "./").parent? = .some ⟨""⟩ := by decide +kernel
example : (Path.mk "/a/../../b/./c").normalize = ⟨"/b/c"⟩ := by decide +kernel
example : (Path.mk "../a/../..").normalize = ⟨"../.."⟩ := by decide +kernel

end Path

end ThemeVars
