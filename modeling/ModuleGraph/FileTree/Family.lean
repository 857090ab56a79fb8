import ModuleGraph.FileTree.Basic
import ModuleGraph.Family
import ModuleGraph.Resolve.Basic

namespace ModuleGraph

namespace FileTree

def firstLine : List UInt8 → List UInt8
  | [] => []
  | b :: bs => if b = 0x0A then [b] else b :: firstLine bs

/-- The family of a file: told from its extension, or else from its first line, which has to be readable. -/
def family? (t : FileTree) (p : Path) : Option Family :=
  match p.extension? with
  | some extension => Family.ofExtension? extension
  | none => do
    let line ← Utf8.decode? (firstLine (← t.read? p))
    Family.ofShebang? line

end FileTree

namespace Resolver

/-- The file that a specifier stands for in an importer, whose family is told from the file. -/
def resolve? (t : FileTree) (r : Resolver) (importer : Path) (spec : String) : Option Path :=
  r.resolveAs? t ((t.family? importer).getD .curly) importer spec

end Resolver

end ModuleGraph
