import SiteTree.Json.Fingerprint
import SiteTree.Proofs.Json.Text
import SiteTree.Proofs.Text.Encoding

/-!
# What fingerprints tell apart

A fingerprint is the digest of a value's text. The text says everything about the value but the order of
fields, so fingerprints differ where values do, as far as the digests of different texts do.

* `fingerprint_eq_iff` — fingerprints are the same exactly when the digested texts have one digest.
* `fingerprint_tells_values` — fingerprints are the same exactly when the values are.
-/

namespace SiteTree

/-! ### Digests of short texts -/

namespace Hash.Blake3

theorem stretches_of_le {size : Nat} {positive : 0 < size} {bytes : List UInt8}
    (h : bytes.length ≤ size) : stretches size positive bytes = [bytes] := by
  rw [stretches, if_pos h]

/-- The digest of what fits into one block comes from a single compression. -/
theorem hash_of_le {bytes : List UInt8} (h : bytes.length ≤ 64) :
    Blake3.hash bytes = ((Node.mk initial (blockWords bytes) 0 bytes.length.toUInt32
      (flagChunkStart ||| flagChunkEnd)).compress flagRoot).toList.flatMap wordBytes := by
  rw [Blake3.hash, stretches_of_le (by omega), List.zipIdx_singleton]
  simp only [List.map_cons, List.map_nil]
  rw [tree, leaf, stretches_of_le h]
  rfl

theorem hexDigest_eq_iff {first second : List UInt8} :
    hexDigest first = hexDigest second ↔ Blake3.hash first = Blake3.hash second := by
  constructor
  · intro h
    exact Text.encodeHex_injective (String.ofList_injective h)
  · intro h
    rw [hexDigest, hexDigest, h]

end Hash.Blake3

namespace Json

variable {v w : Json}

theorem render_eq_iff : v.render = w.render ↔ v.text = w.text :=
  String.ofList_inj

/-- The bytes that a fingerprint is the digest of. -/
def digested (v : Json) : List UInt8 :=
  Text.encodeUtf8 v.render

theorem digested_eq_iff : v.digested = w.digested ↔ v.render = w.render :=
  Text.encodeUtf8_injective.eq_iff

theorem fingerprint_eq_iff :
    v.fingerprint = w.fingerprint ↔ Hash.Blake3.hash v.digested = Hash.Blake3.hash w.digested :=
  Hash.Blake3.hexDigest_eq_iff

theorem render_eq_iff_same (hv : v.namesApart = true) (hw : w.namesApart = true) :
    v.render = w.render ↔ v.same w = true :=
  render_eq_iff.trans (text_eq_iff hv hw)

theorem fingerprint_eq_iff_same (hv : v.namesApart = true) (hw : w.namesApart = true)
    (hcollision : Hash.Blake3.hash v.digested = Hash.Blake3.hash w.digested →
      v.digested = w.digested) :
    v.fingerprint = w.fingerprint ↔ v.same w = true := by
  rw [fingerprint_eq_iff, ← render_eq_iff_same hv hw, ← digested_eq_iff]
  exact ⟨hcollision, congrArg Hash.Blake3.hash⟩

/-- The text of a value is the same as that of another exactly when the values are, objects being
taken as maps, and so are the fingerprints where the two texts do not collide. The text of an object
has its fields in the order of the bytes of their names. -/
theorem fingerprint_tells_values (hv : v.namesApart = true) (hw : w.namesApart = true)
    (hcollision : Hash.Blake3.hash v.digested = Hash.Blake3.hash w.digested →
      v.digested = w.digested) :
    (v.fingerprint = w.fingerprint ↔ v.same w = true) ∧
      (v.render = w.render ↔ v.same w = true) ∧
      ∀ fields : List (String × Json), (fields.map Prod.fst).Nodup →
        ∃ ordered : List (String × Json), ordered.Perm fields ∧
          ordered.Pairwise (fun a b => Text.encodeUtf8 a.1 < Text.encodeUtf8 b.1) ∧
          (object fields).render = String.ofList
            ('{' :: ([','].intercalate (ordered.map writtenField) ++ ['}'])) := by
  refine ⟨fingerprint_eq_iff_same hv hw hcollision, render_eq_iff_same hv hw, ?_⟩
  intro fields hnodup
  obtain ⟨ordered, hperm, hsorted, htext⟩ := exists_text_object hnodup
  exact ⟨ordered, hperm, hsorted, congrArg String.ofList htext⟩

/-- A card with a control character and a character beyond ASCII in its title. -/
def card : Json :=
  object [("title", string "Café\x01"),
    ("sizes", array [int 2, object [("b", null), ("a", bool true)]])]

/-- The same card, with the fields of both objects in another order. -/
def shuffledCard : Json :=
  object [("sizes", array [int 2, object [("a", bool true), ("b", null)]]),
    ("title", string "Café\x01")]

/-- Prices as integers. -/
def wholePrices : Json :=
  array [int 1, array [string "é"]]

/-- Prices as doubles. -/
def exactPrices : Json :=
  array [double ⟨0x3FF0000000000000⟩, array [string "é"]]

theorem hash_prices_ne :
    Hash.Blake3.hash wholePrices.digested ≠ Hash.Blake3.hash exactPrices.digested := by
  rw [Hash.Blake3.hash_of_le (by decide +kernel), Hash.Blake3.hash_of_le (by decide +kernel)]
  decide +kernel

/-- The two cards have one text and so no collision, and the two lists of prices have two digests. -/
theorem card_prices_fingerprints :
    (card.namesApart = true ∧ shuffledCard.namesApart = true ∧
      card.digested = shuffledCard.digested ∧ card.fingerprint = shuffledCard.fingerprint) ∧
    wholePrices.namesApart = true ∧ exactPrices.namesApart = true ∧
      Hash.Blake3.hash wholePrices.digested ≠ Hash.Blake3.hash exactPrices.digested ∧
      wholePrices.fingerprint ≠ exactPrices.fingerprint := by
  have hcard : card.namesApart = true := by decide
  have hshuffled : shuffledCard.namesApart = true := by decide
  have hwhole : wholePrices.namesApart = true := by decide
  have hexact : exactPrices.namesApart = true := by decide
  constructor
  · have htexts : card.digested = shuffledCard.digested :=
      digested_eq_iff.mpr ((render_eq_iff_same hcard hshuffled).mpr (by decide))
    refine ⟨hcard, hshuffled, htexts, ?_⟩
    exact (fingerprint_tells_values hcard hshuffled fun _ => htexts).1.mpr (by decide)
  · refine ⟨hwhole, hexact, hash_prices_ne, ?_⟩
    intro h
    have hsame := (fingerprint_tells_values hwhole hexact
      fun hdigest => absurd hdigest hash_prices_ne).1.mp h
    exact absurd hsame (by decide)

end Json

end SiteTree
