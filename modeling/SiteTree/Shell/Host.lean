import SiteTree.Shell.Run

/-!
# A host with the usual programs
-/

namespace SiteTree

/-- A host on which the filters and the shell are installed. -/
def Host.withFilters (home : Path) : Host where
  home
  program? name :=
    let installed := ("sh", Shell.program home) :: Command.filters
    (["", "/bin/", "/usr/bin/"].findSome? fun directory =>
      (installed.find? fun entry => directory ++ entry.1 == name).map Prod.snd)

end SiteTree
