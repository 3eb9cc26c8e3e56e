-- SUMMARY: Page-format constants and row identifiers.
import Minirel.Python

namespace Minirel

/-- Bytes in every page of the data file. -/
def pageSize : Nat := 4096

/-- The page id that means "no page". -/
def invalidPageId : Nat := 0xFFFFFFFF

/-- A row identifier: which page a tuple lives on, and which slot within it. -/
structure RID where
  pageId : Nat
  slotId : Nat
  deriving DecidableEq, Repr

end Minirel
