import SiteTree.Files
import SiteTree.Proofs.Disk.Reads
import SiteTree.Proofs.Outcome

/-!
# Reading texts

* `Files.toOption_read_putAll` — whether a text can be read, and what it is, does not depend on
  writes that go elsewhere. Only the reason why it cannot be read may differ.
-/

namespace SiteTree.Files

variable {disk : Disk} {path : Path}

theorem read_eq_ok_iff {text : String} :
    read disk path = .ok text ↔ disk.readText path = .ok text := by
  rw [read]
  cases disk.readText path with
  | error error => simp
  | ok found => simp

theorem toOption_read_putAll {writes : List (Path × List UInt8)}
    (h : ∀ write ∈ writes, disk.target? path ≠ disk.target? write.1) :
    (read (disk.putAll writes) path).toOption = (read disk path).toOption := by
  refine Option.ext fun text => ?_
  rw [toOption_eq_some_iff, toOption_eq_some_iff, read_eq_ok_iff, read_eq_ok_iff]
  exact Disk.readText_putAll writes h

theorem toOption_readAll {first second : Disk} {sources : List Path}
    (hsame : ∀ source ∈ sources,
      (read first source).toOption = (read second source).toOption) :
    (readAll first sources).toOption = (readAll second sources).toOption := by
  rw [readAll, readAll, toOption_bind, toOption_bind, toOption_mapM_congr hsame]

end SiteTree.Files
