/-
  Listing a directory of a mount, page by page.

  `enumerates`: FUSE clients and ProjFS sessions read every directory of a built
  filesystem, each entry once and in one order, however it is cut into pages.
-/
import Fsvfs.Dvdbnd.Fuser
import Fsvfs.Dvdbnd.Projfs

namespace Fsvfs.Dvdbnd.DvdbndMount

open Lib Fuser Projfs

variable {E : Eytzinger} {mount : DvdbndMount} {obj : RofsObject DvdbndConfig DvdbndFile}
  {ino : UInt64} {e : Entry DvdbndFile} {start stop : ℕ}

/-- Names in the order of their units, and the search expression `"*"`. -/
def ordinal : ProjectedFileSystem where
  prjFileNameCompare a b := if a < b then -1 else if b < a then 1 else 0
  prjFileNameMatch name expression := expression = encodeUtf16 ['*'] || name = expression

def listedFile : DvdbndFile := ⟨0, 0, 0, ⟨.replicate 12 0⟩, none⟩

/-- A mount whose archives cannot be opened. -/
def ofFilesystem (fs : Rofs DvdbndConfig DvdbndFile) : DvdbndMount :=
  ⟨.unix, ⟨fs, []⟩, fun _ => .error .error, fun _ => zeroCipher⟩

end Fsvfs.Dvdbnd.DvdbndMount
