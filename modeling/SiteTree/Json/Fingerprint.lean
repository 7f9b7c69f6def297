import SiteTree.Json.Text
import SiteTree.Hash.Blake3
import SiteTree.Text.Utf8

/-!
# Fingerprints of values

A fingerprint is the digest of a value's compact text. It stands for the value where a whole
value would be too large a key.
-/

namespace SiteTree.Json

/-- The digest of the compact text, in hexadecimal. -/
def fingerprint (value : Json) : String :=
  Hash.Blake3.hexDigest (Text.encodeUtf8 value.render)

end SiteTree.Json
