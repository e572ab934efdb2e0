/-
Whether something carries color: by the name of a property or variable, or by
a color, a gradient or an image in a value.
-/
import ThemeVars.Token.Pieces
import ThemeVars.Text.Search

namespace ThemeVars.Color

/-- The named colors, and the keywords that stand for a color. -/
def names : List String :=
  ["aliceblue", "antiquewhite", "aqua", "aquamarine", "azure", "beige", "bisque", "black",
   "blanchedalmond", "blue", "blueviolet", "brown", "burlywood", "cadetblue", "chartreuse", "chocolate",
   "coral", "cornflowerblue", "cornsilk", "crimson", "currentcolor", "cyan", "darkblue", "darkcyan",
   "darkgoldenrod", "darkgray", "darkgreen", "darkgrey", "darkkhaki", "darkmagenta", "darkolivegreen",
   "darkorange", "darkorchid", "darkred", "darksalmon", "darkseagreen", "darkslateblue", "darkslategray",
   "darkslategrey", "darkturquoise", "darkviolet", "deeppink", "deepskyblue", "dimgray", "dimgrey",
   "dodgerblue", "firebrick", "floralwhite", "forestgreen", "fuchsia", "gainsboro", "ghostwhite", "gold",
   "goldenrod", "gray", "green", "greenyellow", "grey", "honeydew", "hotpink", "indianred", "indigo",
   "ivory", "khaki", "lavender", "lavenderblush", "lawngreen", "lemonchiffon", "lightblue", "lightcoral",
   "lightcyan", "lightgoldenrodyellow", "lightgray", "lightgreen", "lightgrey", "lightpink",
   "lightsalmon", "lightseagreen", "lightskyblue", "lightslategray", "lightslategrey", "lightsteelblue",
   "lightyellow", "lime", "limegreen", "linen", "magenta", "maroon", "mediumaquamarine", "mediumblue",
   "mediumorchid", "mediumpurple", "mediumseagreen", "mediumslateblue", "mediumspringgreen",
   "mediumturquoise", "mediumvioletred", "midnightblue", "mintcream", "mistyrose", "moccasin",
   "navajowhite", "navy", "oldlace", "olive", "olivedrab", "orange", "orangered", "orchid",
   "palegoldenrod", "palegreen", "paleturquoise", "palevioletred", "papayawhip", "peachpuff", "peru",
   "pink", "plum", "powderblue", "purple", "rebeccapurple", "red", "rosybrown", "royalblue",
   "saddlebrown", "salmon", "sandybrown", "seagreen", "seashell", "sienna", "silver", "skyblue",
   "slateblue", "slategray", "slategrey", "snow", "springgreen", "steelblue", "tan", "teal", "thistle",
   "tomato", "transparent", "turquoise", "violet", "wheat", "white", "whitesmoke", "yellow",
   "yellowgreen"]

/-- The functions that give a color or an image. -/
def functions : List String :=
  ["rgb", "rgba", "hsl", "hsla", "hwb", "lab", "lch", "oklab", "oklch", "color", "color-mix",
   "light-dark", "linear-gradient", "radial-gradient", "conic-gradient", "repeating-linear-gradient",
   "repeating-radial-gradient", "repeating-conic-gradient", "url", "image", "image-set",
   "-webkit-image-set", "cross-fade", "element", "darken", "lighten", "saturate", "desaturate", "fade",
   "fadein", "fadeout", "mix", "tint", "shade", "spin", "adjust-hue", "transparentize", "opacify"]

/-- The beginnings of the properties that carry color. -/
def propertyStems : List String :=
  ["background", "border", "outline", "text-decoration", "text-emphasis", "column-rule", "fill",
   "stroke", "caret", "accent", "scrollbar", "list-style-image", "mask", "flood", "lighting", "stop"]

/-- Where the name stands in a part of a sorted list, if it does: the part is
halved until one place is left. -/
def place (sorted : List String) (name : String) (first size : Nat) : Nat :=
  if size ≤ 1 then first
  else
    let half := size / 2
    let middle := first + half
    place sorted name (if name < sorted.getD middle "" then first else middle) (size - half)
termination_by size

/-- A named color, in letters of either case. -/
def isName (ident : String) : Bool :=
  let name := ident.lowered
  names[place names name 0 names.length]? == .some name

/-- Three, four, six or eight hexadecimal digits. -/
def isHex (digits : String) : Bool :=
  [3, 4, 6, 8].contains digits.length && digits.toList.all isHexDigit

/-- The name of a property or variable, its sigil and hyphens aside, that
stands for a color. -/
def isProperty (name : String) : Bool :=
  let name := String.ofList (Text.lower (name.toList.dropWhile fun c => c == '$' || c == '@' || c == '-'))
  name == "color" || "-color".toList.isSuffixOf name.toList || "shadow".occursIn name ||
    propertyStems.any fun stem => name.beginsWith stem

/-- A color, an image or a function that gives one. -/
def isToken : Token → Bool
  | .ident name => isName name
  | .hash digits => isHex digits
  | .idHash digits => isHex digits
  | .url _ => true
  | .function name => functions.contains name.lowered
  | _ => false

/-- Reads on to the end, over blocks. -/
def drain : Pieces → Pieces
  | .done => .done
  | .leaf _ rest => drain rest
  | .block _ _ _ _ rest => drain rest

/-- What was found in a block; nothing counts that was found in a block of which
something is left unread. -/
def closing (found : Bool) (left : Pieces) : Option Bool :=
  match left.afterFiller with
  | .done => .some found
  | _ => .none

/-- Whether a color stands among the pieces, at any depth, and what is left
unread behind the first; a block that is opened by one is passed over. -/
def search : Pieces → Bool × Pieces
  | .done => (false, .done)
  | .leaf l rest => if isToken l.token then (true, rest) else search rest
  | .block opener _ inner _ rest =>
    let (found, left) := search inner
    if isToken opener.token || (closing found (drain left)).getD false then (true, rest) else search rest

/-- A color or an image stands in the value. -/
def isValue (value : String) : Bool := (search (.ofText value.toList)).1

/-- The name or the value carries color. -/
def isBearing (name : Option String) (value : String) : Bool := name.any isProperty || isValue value

end ThemeVars.Color
