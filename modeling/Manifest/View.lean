import Manifest.Locator

/-! # Views of manifests

A manifest as a run of the program sees it: its text and the applications located in it, or the
reason why its text could not be had. -/

namespace Manifest

/-- A manifest with its applications. -/
structure View where
  path : String
  /-- The path as it is shown. -/
  shownPath : String
  document : Document
  located : Located
  error? : Option String

namespace View

/-- The view of a manifest with the given text. -/
def ofText (path shownPath text : String) (l : Locator) (previous? : Option Selection) : View :=
  let document := Document.ofText text
  ⟨path, shownPath, document, l.locate document previous?, none⟩

/-- The view of a manifest whose text cannot be had. -/
def unreadable (path shownPath error : String) : View :=
  ⟨path, shownPath, .ofText "", .empty, some error⟩

end View

end Manifest
