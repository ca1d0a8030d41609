/-
Paths (`fs/path.rs`, and `resolve_relative_path` of `fs/vfs.rs`).

A path is a list of characters, as the code has it. `normalize` resolves `.` and `..`; `normalizeJailed` does so without
going above a number of components. `resolveRelativePath` makes an absolute path of what a user passes, from the working
directory and the jail root of the task.
-/
import Mathlib.Tactic

namespace Kontsnor.Fs

abbrev Name := List Char

abbrev Path := List Char

variable (path : Path)

def startsWithSlash : Bool := path.head? == some '/'

def endsWithSlash : Bool := path.getLast? == some '/'

/-- no duplicate slashes, no `.` or `..`, and no slash at the end -/
def isNormalized : Bool :=
  if path = [] then false
  else if path = ['/'] then true
  else
    let body := if startsWithSlash path then path.tail else path
    !endsWithSlash path && (body.splitOn '/').all fun c => c != [] && c != ['.'] && c != ['.', '.']

/-- one component goes on the stack; `..` takes the last one off, if more than `floor` are there -/
def pushComponent (floor : ℕ) (components : List Name) (component : Name) : List Name :=
  if component = [] ∨ component = ['.'] then components
  else if component = ['.', '.'] then
    if floor < components.length then components.dropLast else components
  else components ++ [component]

def joinComponents (components : List Name) : Path := ['/'].intercalate components

def normalize : Path :=
  if isNormalized path then path
  else
    let components := (path.splitOn '/').foldl (pushComponent 0) []
    let result := (if startsWithSlash path then ['/'] else []) ++ joinComponents components
    if result = [] then ['/'] else result

def parts : List Name := (path.splitOn '/').filter fun c => c != []

def normalizeJailed (path root : Path) : Path :=
  let rootParts := parts root
  let components := (path.splitOn '/').foldl (pushComponent rootParts.length) []
  let components := if components.length < rootParts.length then rootParts else components
  '/' :: joinComponents components

def join (base name : Path) : Path :=
  if startsWithSlash name then name
  else if endsWithSlash base then base ++ name
  else base ++ '/' :: name

structure FsContext where
  cwd : Path
  root : Path

/-- without a task, the working directory and the root are `/` -/
def FsContext.initial : FsContext := ⟨['/'], ['/']⟩

/-- the path begins with the jail root already -/
def isPrefixed (root path : Path) : Bool :=
  path == root || (root.isPrefixOf path && (endsWithSlash root || startsWithSlash (path.drop root.length)))

def resolveRelativePath (ctx : FsContext) (path : Path) : Path :=
  if ctx.root = ['/'] then
    if startsWithSlash path then normalize path
    else if ctx.cwd = ['/'] then
      if isNormalized path then '/' :: path else normalize (join ctx.cwd path)
    else if isNormalized path then
      if endsWithSlash ctx.cwd then ctx.cwd ++ path else ctx.cwd ++ '/' :: path
    else normalize (join ctx.cwd path)
  else if isPrefixed ctx.root path then normalizeJailed path ctx.root
  else
    let fullPath :=
      if startsWithSlash path then
        if path = ['/'] then ctx.root else ctx.root ++ path
      else join ctx.cwd path
    normalizeJailed fullPath ctx.root

end Kontsnor.Fs
