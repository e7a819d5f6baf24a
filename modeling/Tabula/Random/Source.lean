/-!
Sources of random words. A source is a value: drawing a word gives the word and the source that is left.
-/

namespace Tabula

class WordSource (γ : Type) where
  next : γ → UInt64 × γ

/-- Words written down in advance; when they are used up, only zeros follow. -/
structure Tape where
  words : List UInt64
deriving DecidableEq

instance : WordSource Tape where
  next
    | ⟨[]⟩ => (0, ⟨[]⟩)
    | ⟨w :: rest⟩ => (w, ⟨rest⟩)

end Tabula
