import Modelica.Release

set_option autoImplicit false

namespace Modelica.Release

abbrev Keywords := OrderedMap String String

namespace Keywords

def quotedValue? : List Char → Option (List Char)
  | [] => none
  | c :: rest =>
    let here :=
      if c = '=' then
        match rest.dropWhile Text.isBlank with
        | '"' :: body =>
          if body.contains '"' then some ((Text.dropEnd (· ≠ '"') body).dropLast) else none
        | _ => none
      else none
    match here with
    | some value => some value
    | none => quotedValue? rest

def holders : List (String × String) :=
  [("git_refnames =", "refnames"), ("git_full =", "full"), ("git_date =", "date")]

def ofLine (found : Keywords) (line : String) : Keywords :=
  holders.foldl (fun found v =>
    if Text.startsWith (Text.trim line) v.1 then
      match quotedValue? line.toList with
      | some value => found.insert v.2 (String.ofList value)
      | none => found
    else found) found

def ofFile : Option String → Keywords
  | none => .empty
  | some text => (Text.lines text).foldl ofLine .empty

def need (k : Keywords) (key : String) : Report String :=
  match k.find? key with
  | some s => pure s
  | none => throw (.missing key)

def insertName (w : String) : List String → List String
  | [] => [w]
  | v :: rest =>
    if w < v then w :: v :: rest else if w = v then v :: rest else v :: insertName w rest

def sortedNames (names : List String) : List String :=
  names.foldr insertName []

def names (refnames : String) : List String :=
  ((Text.split ',' (Text.trimWhile (fun c => c = '(' || c = ')') refnames)).map
    Text.trim).eraseDups

def tagMark : String := "tag: "

def afterMark (name : String) : String :=
  String.ofList (name.toList.drop tagMark.length)

def info (k : Keywords) (tagStart : String) (verbose : Bool) : Report Info := do
  if k.entries.isEmpty then throw (.notThisMethod "no keywords at all, weird")
  let date := (k.find? "date").map isoDate
  let refnames := Text.trim (← k.need "refnames")
  if Text.startsWith refnames "$Format" then
    if verbose then say "keywords are unexpanded, not using"
    throw (.notThisMethod "unexpanded keywords, not a git-archive tarball")
  let refs := names refnames
  let marked := (refs.filter fun r => Text.startsWith r tagMark).map afterMark
  let tags ←
    if marked.isEmpty then do
      let hasDigit := fun (r : String) => r.toList.any Char.isDigit
      if verbose then
        say ("discarding '" ++ ",".intercalate (refs.filter fun r => !hasDigit r) ++
          "', no digits")
      pure (sortedNames (refs.filter hasDigit))
    else pure (sortedNames marked)
  if verbose then say ("likely tags: " ++ ",".intercalate tags)
  match tags.find? fun t => Text.startsWith t tagStart with
  | some tag =>
    let version := String.ofList (tag.toList.drop tagStart.length)
    if verbose then say ("picking " ++ version)
    return {
      version := some version, revision := some (Text.trim (← k.need "full"))
      dirty := some false, error := none, date }
  | none =>
    if verbose then say "no suitable tags, using unknown + full revision id"
    return {
      version := some "0+unknown", revision := some (Text.trim (← k.need "full"))
      dirty := some false, error := some "no suitable tags", date := none }

def own : Keywords :=
  ⟨[("refnames", "$Format:%d$"), ("full", "$Format:%H$"), ("date", "$Format:%ci$")]⟩

end Keywords

end Modelica.Release
