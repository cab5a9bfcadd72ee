/-!
# Letter case of names

Names of classes, methods and type keywords compare without regard to the case of the letters `A`
to `Z`. Other letters keep their case: `É` and `é` are two names.
-/

namespace ClassDocs.Text

/-- The text with the letters `A` to `Z` replaced by `a` to `z`. -/
def lower (s : String) : String := .ofList (s.toList.map Char.toLower)

/-- Equality of names up to the case of the letters `A` to `Z`. -/
def sameName (a b : String) : Bool := lower a == lower b

@[simp] theorem sameName_refl (a : String) : sameName a a = true := by
  simp [sameName]

theorem sameName_iff (a b : String) : sameName a b = true ↔ lower a = lower b := by
  simp [sameName]

end ClassDocs.Text
