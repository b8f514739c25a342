/-
The extent that stands for a chunk of a file, and its place in the pages.
-/
import Nufs.Metadata.Types

namespace Nufs.Metadata.Store

/-- `extentForRef`. -/
def extentForRef (ref : ChunkRef) : ExtentMeta := ⟨ref.id, ref.length⟩

/-- The place of a chunk in the pages. -/
def extentRefOf (ref : ChunkRef) : ExtentRef := ⟨ref.id, ref.offset⟩

end Nufs.Metadata.Store
