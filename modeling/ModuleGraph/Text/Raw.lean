import ModuleGraph.Text.Utf8

namespace ModuleGraph

/-- A name as a system holds it: bytes, which need not encode characters. -/
@[ext]
structure RawText where
  toList : List UInt8
  deriving DecidableEq, Repr, Inhabited

namespace RawText

def ofString (s : String) : RawText :=
  ⟨Utf8.encode s⟩

instance : Coe String RawText := ⟨ofString⟩

instance : Coe (List String) (List RawText) := ⟨List.map ofString⟩

instance : Append RawText := ⟨fun s t => ⟨s.toList ++ t.toList⟩⟩

/-- The text with a replacement character in the place of each run of bytes that encodes none. -/
def lossy (s : RawText) : String :=
  .ofList (Utf8.decodeLossy s.toList)

/-- The text of bytes that encode characters throughout. -/
def text? (s : RawText) : Option String :=
  (Utf8.decode? s.toList).map .ofList

end RawText

end ModuleGraph
