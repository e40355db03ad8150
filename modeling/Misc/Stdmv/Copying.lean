import Misc.Lib.Spaces
import Misc.Stdmv.PackagePaths
import Misc.Stdmv.Replace

namespace Misc.Stdmv
open Misc.Lib SlashPaths
set_option autoImplicit true

def bytes (s : String) : List UInt8 := s.toList.map ch

/-- What `parser.ParseFile` finds: the package clause and where it is, the import paths with
their quotes, and the groups of comments with their places. -/
structure GoFile where
  pkgname : List UInt8
  namePos : Nat
  imports : List (List UInt8)
  comments : List (Nat × List (List UInt8))

structure GoMetadata where
  build : List UInt8
  pkgname : List UInt8
  imports : List (List UInt8)

/-- The comments of a group; `none` is a constraint in the old syntax, at which the program
exits. -/
def scanGroup (build : List UInt8) (stop : Bool) : List (List UInt8) → Option (List UInt8 × Bool)
  | [] => some (build, stop)
  | text :: list =>
    let stop := stop || text[1]? == some (ch '*')
    if (bytes "//go:build").isPrefixOf text then some (trimSpace (text.drop 10), stop)
    else if (bytes "+build").isPrefixOf (trimSpace (text.drop 2)) then none
    else scanGroup build stop list

def scanComments (namePos : Nat) (build : List UInt8) :
    List (Nat × List (List UInt8)) → Option (List UInt8)
  | [] => some build
  | (pos, list) :: comments =>
    if namePos < pos then some build
    else (scanGroup build false list).bind fun (build, stop) =>
      if stop then some build else scanComments namePos build comments

/-- `scanGoMetadata` behind the parser. -/
def scanGoMetadata (f : GoFile) : Option GoMetadata :=
  (scanComments f.namePos [] f.comments).map fun build => ⟨build, f.pkgname, f.imports⟩

/-- The build expression of an assembly file, from its lines; the last of them does not end. -/
def asmBuild (buildExpr : List UInt8) : List (List UInt8) → List UInt8
  | line :: next :: lines =>
    if line = [] then asmBuild buildExpr (next :: lines)
    else if (bytes "//").isPrefixOf line then
      asmBuild (if (bytes "//go:build").isPrefixOf line then trimSpace (line.drop 10)
        else buildExpr) (next :: lines)
    else buildExpr
  | _ => buildExpr

def ext (path : List UInt8) : List UInt8 :=
  let tail := path.reverse.takeWhile fun c => c ≠ dot ∧ c ≠ slash
  if path.reverse[tail.length]? = some dot then dot :: tail.reverse else []

def hasSuffix (s suffix : List UInt8) : Bool := suffix.isSuffixOf s

/-- A file of the destination: where it comes from, its path and text, whether it is a Go file,
and the packages that it adds to `depInternals`. -/
structure Write where
  src : List UInt8
  dst : List UInt8
  data : List UInt8
  go : Bool
  deps : List (List UInt8)

/-- What `ctx` and the file system hold; what is read is not under the destination. -/
structure Env where
  ctx : Ctx
  roots : Roots
  stdDir : List UInt8
  srcRoot : List UInt8
  dstRoot : List UInt8
  pkgName : List UInt8
  distArch : List UInt8 → Bool
  distOS : List UInt8 → Bool
  isDir : List UInt8 → Bool
  isRegularFile : List UInt8 → Bool
  readDir : List UInt8 → Option (List (List UInt8 × Bool))
  readFile : List UInt8 → Option (List UInt8)
  parseFile : List UInt8 → Option GoFile

namespace Env

variable (env : Env)

def buildable (expr : List UInt8) : Bool :=
  (evalGoBuildConstraint env.ctx (expr.length + 1) expr).getD false

/-- The system and the architecture that the name of a file asks for. -/
def parseConstraintFromName (name : List UInt8) : List UInt8 × List UInt8 :=
  let ext := ext name
  if ext = [] then ([], [])
  else
    let segs := (name.take (name.length - ext.length)).splitOn (ch '_')
    let n := segs.length
    let arch := 1 < n && env.distArch (segs.getD (n - 1) [])
    let n' := if arch then n - 1 else n
    (if 1 < n' && env.distOS (segs.getD (n' - 1) []) then segs.getD (n' - 1) [] else [],
      if arch then segs.getD (n - 1) [] else [])

/-- The files of a directory that `copyPkgDir` copies. -/
def selects (name : List UInt8) : Bool :=
  let (distos, distarch) := env.parseConstraintFromName name
  (hasSuffix name (bytes ".go") || hasSuffix name (bytes ".s")) &&
    !hasSuffix name (bytes "_test.go") &&
    (distos = [] || distos = env.ctx.goos) && (distarch = [] || distarch = env.ctx.goarch)

/-- An import of `processGoFile`, with the segments of the text and what has been added to
`depInternals`. -/
def mapImport (p : List (List UInt8) × List (List UInt8)) (pkgPath : List UInt8) :
    List (List UInt8) × List (List UInt8) :=
  let orig := (pkgPath.drop 1).dropLast
  let mapped := mapInternalPkgPath env.roots orig
  if mapped = orig then p
  else (shallowReplace p.1 pkgPath (.bytes (ch '"' :: mapped ++ [ch '"'])) 1, p.2 ++ [orig])

/-- What comes in the place of `//go:`. -/
def directive (next : List UInt8) : List UInt8 :=
  if (bytes "build").isPrefixOf next then bytes "//go:" else bytes "//!go:"

def processGoFile (newPkgName srcName dstName : List UInt8) : Option (List Write) :=
  (env.readFile srcName).bind fun srcData =>
    ((env.parseFile srcData).bind scanGoMetadata).bind fun metadata =>
      if env.buildable metadata.build then
        let content := if newPkgName = [] then [srcData] else
          shallowReplace [srcData] (bytes "package " ++ metadata.pkgname)
            (.bytes (bytes "package " ++ newPkgName)) 1
        let (content, deps) := metadata.imports.foldl env.mapImport (content, [])
        some [⟨srcName, dstName,
          (shallowReplace content (bytes "//go:") (.func directive) (-1)).flatten, true, deps⟩]
      else some []

def copyAsmFile (srcName dstName : List UInt8) : Option (List Write) :=
  (env.readFile srcName).map fun data =>
    if env.buildable (asmBuild [] (data.splitOn (ch '\n'))) then
      [⟨srcName, dstName, data, false, []⟩] else []

def copyFile (srcName dstName : List UInt8) : Option (List Write) :=
  (env.readFile srcName).map fun data => [⟨srcName, dstName, data, false, []⟩]

/-- One turn of the loop of `copyPkgFiles`. -/
def copyPkgFile (srcDir dstDir newPkgName file : List UInt8) : Option (List Write) :=
  let srcName := join [srcDir, file]
  let dstName := join [dstDir, file]
  if env.isRegularFile srcName then
    if hasSuffix file (bytes ".go") then env.processGoFile newPkgName srcName dstName
    else if hasSuffix file (bytes ".s") then env.copyAsmFile srcName dstName
    else env.copyFile srcName dstName
  else some []

/-- What is written; `none` where the program exits. -/
def copyPkgFiles (srcDir dstDir : List UInt8) (files : List (List UInt8)) :
    Option (List Write) :=
  let newPkgName := if dstDir = env.dstRoot then env.pkgName else []
  (files.mapM (env.copyPkgFile srcDir dstDir newPkgName)).map .flatten

/-- `copyPkgDir` with a bound on the depth of directories. -/
def copyPkgDir (rec : Bool) : Nat → List UInt8 → List UInt8 → Option (List Write)
  | 0, _, _ => none
  | n + 1, srcDir, dstDir =>
    (env.readDir srcDir).bind fun entries =>
      let subDirs := (entries.filter (·.2)).map (·.1)
      let files := ((entries.filter fun e => !e.2).map (·.1)).filter env.selects
      (if files = [] then some [] else env.copyPkgFiles srcDir dstDir files).bind fun ws =>
        if rec then
          (subDirs.mapM fun subDir =>
            copyPkgDir rec n (join [srcDir, subDir]) (join [dstDir, subDir])).map
            fun wss => ws ++ wss.flatten
        else some ws

def mappedPath (pkgPath : List UInt8) : List UInt8 :=
  join [env.dstRoot, (mapInternalPkgPath env.roots pkgPath).drop env.roots.modName.length]

/-- The copy of a package in the loop of `main`, where a path shorter than that of the module is
out of range. -/
def copyDep (pkgPath : List UInt8) : Option (List Write) :=
  if (mapInternalPkgPath env.roots pkgPath).length < env.roots.modName.length then none
  else env.copyPkgDir false 1 (join [env.stdDir, pkgPath]) (env.mappedPath pkgPath)

end Env

end Misc.Stdmv
