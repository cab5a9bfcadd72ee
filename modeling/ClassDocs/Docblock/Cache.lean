import ClassDocs.Docblock.Reader
import ClassDocs.Index.Basic

/-!
# Comments parsed once

A cache of parsed comments, keyed by their text as written. Parsing depends on the text only, so
what is kept never goes stale; the cache carries the proof that everything in it is what the parser
gives.
-/

namespace ClassDocs

/-- Comments parsed before. -/
structure ParseCache where
  /-- The parsed comments by their text. -/
  docs : Table Docblock
  sound : ∀ raw doc, docs.find? raw = some doc → doc = Docblock.parse raw

namespace ParseCache

/-- A cache before the first comment. -/
def empty : ParseCache where
  docs := {}
  sound := by simp

instance : Inhabited ParseCache := ⟨empty⟩

/-- The cache with one more comment parsed. -/
def keep (cache : ParseCache) (raw : String) : ParseCache where
  docs := cache.docs.insert raw (Docblock.parse raw)
  sound := by
    intro raw' doc hfound
    rw [Table.find?_insert] at hfound
    split at hfound
    · rename_i hsame
      rw [beq_iff_eq.mp hsame]
      exact (Option.some.inj hfound).symm
    · exact cache.sound raw' doc hfound

end ParseCache

/-- Lookups that parse comments through a cache. -/
abbrev Caching := StateT ParseCache Lookup

/-- A comment from the cache, or else parsed and kept. -/
def parseOnce (raw : String) : Caching Docblock := do
  match (← get).docs.find? raw with
  | some doc => return doc
  | none =>
    modify (·.keep raw)
    return Docblock.parse raw

end ClassDocs
