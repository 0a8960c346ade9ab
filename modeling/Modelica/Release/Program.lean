import Modelica.Release.Describe

set_option autoImplicit false

namespace Modelica.Release

inductive Launch where
  | notFound
  | refused
  | finished (output : String) (code : Nat)
deriving DecidableEq, Repr

def isOutputBlank (c : Char) : Bool :=
  c = ' ' || (9 ≤ c.toNat && c.toNat ≤ 13)

def run (launch : String → List String → Launch) (commands arguments : List String)
    (verbose : Bool) : List String → Report Answer
  | [] => do
    if verbose then say ("unable to find command, tried " ++ Text.quotedList commands)
    return ⟨none, none⟩
  | command :: rest => do
    let line := Text.quotedList (command :: arguments)
    match launch command arguments with
    | .notFound => run launch commands arguments verbose rest
    | .refused =>
      if verbose then
        say ("unable to run " ++ line)
        say ("[Errno 13] Permission denied: " ++ Text.inQuotes command)
      return ⟨none, none⟩
    | .finished output code =>
      let output := Text.trimWhile isOutputBlank output
      if code = 0 then return ⟨some output, some 0⟩
      if verbose then
        say ("unable to run " ++ line ++ " (error)")
        say ("stdout was " ++ output)
      return ⟨none, some code⟩

namespace Program

def octalValue? (c : Char) : Option Nat :=
  if '0' ≤ c && c ≤ '7' then some (c.toNat - 48) else none

def digits (value? : Char → Option Nat) (base n : Nat) : Nat → List Char → Nat × List Char
  | 0, cs => (n, cs)
  | _, [] => (n, [])
  | width + 1, c :: cs =>
    match value? c with
    | some d => digits value? base (n * base + d) width cs
    | none => (n, c :: cs)

def named? (c : Char) : Option Char :=
  match c with
  | 'a' => some (Char.ofNat 7)
  | 'b' => some (Char.ofNat 8)
  | 'e' => some (Char.ofNat 27)
  | 'f' => some (Char.ofNat 12)
  | 'n' => some '\n'
  | 'r' => some '\r'
  | 't' => some '\t'
  | 'v' => some (Char.ofNat 11)
  | '\\' => some '\\'
  | _ => none

def unescape (octalStart : Bool) : List Char → Option (List Char) × List Char
  | [] => (some ['\\'], [])
  | 'c' :: _ => (none, [])
  | 'x' :: rest =>
    let (n, after) := digits Json.hexValue? 16 0 2 rest
    if after.length = rest.length then (some ['\\', 'x'], rest) else (some [Char.ofNat n], after)
  | c :: rest =>
    match named? c with
    | some d => (some [d], rest)
    | none =>
      if octalStart && c = '0' then
        let (n, after) := digits octalValue? 8 0 3 rest
        (some [Char.ofNat (n % 256)], after)
      else if !octalStart && (octalValue? c).isSome then
        let (n, after) := digits octalValue? 8 0 3 (c :: rest)
        (some [Char.ofNat (n % 256)], after)
      else if !octalStart && c = '"' then (some ['"'], rest)
      else (some ['\\', c], rest)

def unescapeAll (octalStart : Bool) : Nat → List Char → List Char × Bool
  | 0, _ => ([], true)
  | _, [] => ([], true)
  | fuel + 1, c :: cs =>
    if c = '\\' then
      match unescape octalStart cs with
      | (none, _) => ([], false)
      | (some out, rest) =>
        let (more, go) := unescapeAll octalStart fuel rest
        (out ++ more, go)
    else
      let (more, go) := unescapeAll octalStart fuel cs
      (c :: more, go)

def echo (newline escapes : Bool) : List String → Launch
  | arguments =>
    let text := (" ".intercalate arguments).toList
    let (text, go) := if escapes then unescapeAll true (text.length + 1) text else (text, true)
    .finished (String.ofList (text ++ if newline && go then ['\n'] else [])) 0

def echoFrom (newline escapes : Bool) : List String → Launch
  | [] => echo newline escapes []
  | argument :: rest =>
    match argument.toList with
    | '-' :: c :: cs =>
      if (c :: cs).all fun c => c = 'n' || c = 'e' || c = 'E' then
        let newline := newline && !(c :: cs).contains 'n'
        let escapes := (c :: cs).foldl (fun b c => if c = 'e' then true else
          if c = 'E' then false else b) escapes
        echoFrom newline escapes rest
      else echo newline escapes (argument :: rest)
    | _ => echo newline escapes (argument :: rest)

structure Format where
  output : List Char := []
  arguments : List String
  asked : Bool := false
  go : Bool := true
  code : Nat := 0

namespace Format

def next (f : Format) : String × Format :=
  match f.arguments with
  | [] => ("", { f with asked := true })
  | a :: rest => (a, { f with arguments := rest, asked := true })

def add (f : Format) (text : List Char) : Format := { f with output := f.output ++ text }

def addNumber (f : Format) (text : String) : Format :=
  match readInteger (if text = "" then "0" else text) with
  | .ok n => f.add (toString n).toList
  | .error _ => { f.add ['0'] with code := 1 }

def directive (f : Format) (c : Char) : Format :=
  let (a, after) := f.next
  match c with
  | '%' => f.add ['%']
  | 's' => after.add a.toList
  | 'c' => after.add (a.toList.take 1)
  | 'd' | 'i' | 'u' => after.addNumber a
  | 'b' =>
    let (text, go) := unescapeAll true (a.length + 1) a.toList
    { after.add text with go }
  | _ => { f with go := false, code := 1 }

def pass (f : Format) : Nat → List Char → Format
  | 0, _ => f
  | _, [] => f
  | fuel + 1, c :: cs =>
    if !f.go then f
    else if c = '%' then
      match cs with
      | [] => { f with go := false, code := 1 }
      | d :: rest => pass (f.directive d) fuel rest
    else if c = '\\' then
      match unescape false cs with
      | (none, _) => { f with go := false }
      | (some out, rest) => pass (f.add out) fuel rest
    else pass (f.add [c]) fuel cs

def passes (format : List Char) : Nat → Format → Format
  | 0, f => f
  | fuel + 1, f =>
    let f := pass { f with asked := false } (format.length + 1) format
    if f.go && f.asked && !f.arguments.isEmpty then passes format fuel f else f

end Format

def printf : List String → Launch
  | [] => .finished "" 1
  | format :: arguments =>
    let f := Format.passes format.toList (arguments.length + 1) { arguments }
    .finished (String.ofList f.output) f.code

def folders : List String :=
  ["", ".", "..", "/", "/bin", "/etc", "/tmp", "/usr", "/usr/bin"]

def launch (command : String) (arguments : List String) : Launch :=
  if folders.contains command then .refused
  else
    let name :=
      if directory command = "/bin" || directory command = "/usr/bin" then baseName command
      else command
    match name with
    | "true" => .finished "" 0
    | "false" => .finished "" 1
    | "echo" => echoFrom true false arguments
    | "printf" => printf arguments
    | _ => .notFound

end Program

end Modelica.Release
