/-!
# Tables keyed by text

A finite map from texts to values, kept as the list of its entries. A key keeps the place of its
first insertion and takes the value of its last one, so a table also remembers the order in which
its keys came. Everything is stated through `find?`.
-/

namespace ClassDocs

/-- A finite map from texts to values. -/
structure Table (α : Type) where
  entries : List (String × α) := []

namespace Table

variable {α : Type}

instance : Inhabited (Table α) := ⟨{}⟩

/-- The value under a key. -/
def find? (t : Table α) (key : String) : Option α := t.entries.lookup key

/-- Whether a key has a value. -/
def contains (t : Table α) (key : String) : Bool := (t.find? key).isSome

/-- Entries with a value put under a key. -/
def putEntry (key : String) (value : α) : List (String × α) → List (String × α)
  | [] => [(key, value)]
  | (k, v) :: rest => if key == k then (key, value) :: rest else (k, v) :: putEntry key value rest

/-- The table with a value put under a key. -/
def insert (t : Table α) (key : String) (value : α) : Table α := ⟨putEntry key value t.entries⟩

/-- The table without a key. -/
def erase (t : Table α) (key : String) : Table α := ⟨t.entries.filter fun e => e.1 != key⟩

/-- The table of a list of entries; of entries with one key the last one counts. -/
def ofList (entries : List (String × α)) : Table α :=
  entries.foldl (fun t e => t.insert e.1 e.2) {}

/-- All entries of a second table put over those of the first. -/
def union (t u : Table α) : Table α := u.entries.foldl (fun t e => t.insert e.1 e.2) t

/-- The number of keys. -/
def size (t : Table α) : Nat := t.entries.length

/-- The keys in order of first insertion. -/
def keys (t : Table α) : List String := t.entries.map Prod.fst

/-- The values in order of the first insertion of their keys. -/
def values (t : Table α) : List α := t.entries.map Prod.snd

/-- The entries in ascending order of their keys. -/
def sorted (t : Table α) : List (String × α) := t.entries.mergeSort fun a b => a.1 ≤ b.1

@[simp] theorem find?_empty (key : String) : ({} : Table α).find? key = none := rfl

private theorem lookup_putEntry (entries : List (String × α)) (key : String) (value : α)
    (k : String) :
    (putEntry key value entries).lookup k = if k == key then some value else entries.lookup k := by
  induction entries with
  | nil => cases h : k == key <;> simp [putEntry, List.lookup_cons, h]
  | cons e rest ih =>
    obtain ⟨k', v'⟩ := e
    by_cases hk : key = k'
    · subst hk
      cases h : k == key <;> simp [putEntry, List.lookup_cons, h]
    · cases h : k == k'
      · simp [putEntry, hk, List.lookup_cons, h, ih]
      · have hkey : (k == key) = false := by
          rw [beq_iff_eq] at h
          subst h
          simp [Ne.symm hk]
        simp [putEntry, hk, List.lookup_cons, h, hkey]

theorem find?_insert (t : Table α) (key : String) (value : α) (k : String) :
    (t.insert key value).find? k = if k == key then some value else t.find? k :=
  lookup_putEntry t.entries key value k

theorem find?_insert_self (t : Table α) (key : String) (value : α) :
    (t.insert key value).find? key = some value := by
  simp [find?_insert]

theorem find?_erase (t : Table α) (key k : String) :
    (t.erase key).find? k = if k == key then none else t.find? k := by
  obtain ⟨entries⟩ := t
  simp only [find?, erase]
  induction entries with
  | nil => simp
  | cons e rest ih =>
    obtain ⟨k', v'⟩ := e
    by_cases hk : k' = key
    · subst hk
      rw [List.filter_cons_of_neg (by simp), ih]
      cases h : k == k' <;> simp [List.lookup_cons, h]
    · rw [List.filter_cons_of_pos (by simp [hk])]
      cases h : k == k'
      · simp only [List.lookup_cons, h, ih]
      · have hkey : (k == key) = false := by
          rw [beq_iff_eq] at h
          subst h
          simp [hk]
        simp [List.lookup_cons, h, hkey]

end Table

end ClassDocs
