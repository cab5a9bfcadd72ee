import ClassDocs.Table
import Mathlib.Data.List.Nodup

/-!
# Entries and keys of tables

A table is a list of entries that is only ever changed by putting a value under a key and by taking
a key out, and both keep each key there once. Where that is so, an entry is what is found under its
key, and putting one table over another is looking in it first.
-/

namespace ClassDocs.Table

variable {α : Type}

theorem mem_putEntry {k : String} {v : α} {entries : List (String × α)} {e : String × α}
    (h : e ∈ putEntry k v entries) : e = (k, v) ∨ e ∈ entries := by
  induction entries with
  | nil => exact Or.inl (List.mem_singleton.mp h)
  | cons e' rest ih =>
    obtain ⟨k', v'⟩ := e'
    rw [putEntry] at h
    split at h
    · rcases List.mem_cons.mp h with rfl | h
      · exact Or.inl rfl
      · exact Or.inr (List.mem_cons_of_mem _ h)
    · rcases List.mem_cons.mp h with rfl | h
      · exact Or.inr List.mem_cons_self
      · exact (ih h).imp_right (List.mem_cons_of_mem _)

theorem keys_putEntry (k : String) (v : α) (entries : List (String × α)) :
    (putEntry k v entries).map Prod.fst =
      if k ∈ entries.map Prod.fst then entries.map Prod.fst else entries.map Prod.fst ++ [k] := by
  induction entries with
  | nil => rfl
  | cons e rest ih =>
    obtain ⟨k', v'⟩ := e
    rw [putEntry]
    by_cases hk : k = k'
    · subst hk
      simp
    · rw [if_neg (by simpa using hk), List.map_cons, ih, List.map_cons]
      by_cases hrest : k ∈ rest.map Prod.fst
      · rw [if_pos hrest, if_pos (List.mem_cons_of_mem _ hrest)]
      · rw [if_neg hrest, if_neg (by simp [hk, hrest]), List.cons_append]

theorem nodup_insert {t : Table α} (h : t.keys.Nodup) (k : String) (v : α) :
    (t.insert k v).keys.Nodup := by
  rw [Table.keys, Table.insert, keys_putEntry]
  split
  · exact h
  · rename_i hnew
    exact List.nodup_append.mpr ⟨h, List.nodup_singleton _, by
      rintro a ha b hb rfl
      exact hnew (List.mem_singleton.mp hb ▸ ha)⟩

theorem nodup_erase {t : Table α} (h : t.keys.Nodup) (k : String) : (t.erase k).keys.Nodup :=
  h.sublist (List.filter_sublist.map Prod.fst)

/-- Where each key is there once, an entry is what is found under its key. -/
theorem find?_of_mem {t : Table α} (h : t.keys.Nodup) {k : String} {v : α}
    (hmem : (k, v) ∈ t.entries) :
    t.find? k = some v := by
  obtain ⟨entries⟩ := t
  simp only [Table.find?, Table.keys] at *
  induction entries with
  | nil => cases hmem
  | cons e rest ih =>
    obtain ⟨k', v'⟩ := e
    rw [List.map_cons, List.nodup_cons] at h
    rcases List.mem_cons.mp hmem with heq | hrest
    · obtain ⟨rfl, rfl⟩ := Prod.mk.inj heq
      simp
    · have hkey : k ∈ rest.map Prod.fst := List.mem_map_of_mem hrest
      have hne : k ≠ k' := fun heq => h.1 (heq ▸ hkey)
      rw [List.lookup_cons, beq_false_of_ne hne]
      exact ih h.2 hrest

/-- What a table made of entries holds: some of them, and each key once. -/
structure MadeOf (entries : List (String × α)) (t : Table α) : Prop where
  subset : ∀ e ∈ t.entries, e ∈ entries
  keys : ∀ k, k ∈ t.keys ↔ k ∈ entries.map Prod.fst
  nodup : t.keys.Nodup

theorem MadeOf.insert {entries : List (String × α)} {t : Table α} (h : MadeOf entries t)
    (e : String × α) :
    MadeOf (entries ++ [e]) (t.insert e.1 e.2) where
  subset := by
    intro e' he'
    rw [List.mem_append, List.mem_singleton]
    exact (mem_putEntry he').symm.imp_left (h.subset e')
  keys := by
    intro k
    rw [Table.keys, Table.insert, keys_putEntry, List.map_append, List.mem_append, ← h.keys k]
    change k ∈ (if e.1 ∈ t.keys then t.keys else t.keys ++ [e.1]) ↔ k ∈ t.keys ∨ k ∈ [e.1]
    split
    · rename_i hmem
      rw [List.mem_singleton]
      exact ⟨Or.inl, fun hk => hk.elim id fun heq => heq ▸ hmem⟩
    · exact List.mem_append
  nodup := nodup_insert h.nodup e.1 e.2

theorem madeOf_ofList (entries : List (String × α)) : MadeOf entries (Table.ofList entries) := by
  have hfold : ∀ (more done : List (String × α)) (t : Table α), MadeOf done t →
      MadeOf (done ++ more) (more.foldl (fun t e => t.insert e.1 e.2) t) := by
    intro more
    induction more with
    | nil => intro done t h; simpa using h
    | cons e more ih =>
      intro done t h
      rw [List.append_cons]
      exact ih _ _ (h.insert e)
  exact hfold entries [] {} ⟨by simp, by simp [Table.keys], List.nodup_nil⟩

/-- What is found in a table made of entries is what the last entry of the key says. -/
theorem find?_ofList_eq (entries : List (String × α)) (k : String) :
    (Table.ofList entries).find? k = (entries.reverse.find? (·.1 == k)).map Prod.snd := by
  have hfold : ∀ t : Table α, (entries.foldl (fun t e => t.insert e.1 e.2) t).find? k =
      ((entries.reverse.find? (·.1 == k)).map Prod.snd).or (t.find? k) := by
    induction entries with
    | nil => exact fun t => rfl
    | cons e entries ih =>
      intro t
      rw [List.foldl_cons, ih, find?_insert, List.reverse_cons, List.find?_append,
        List.find?_singleton, Bool.beq_comm, Option.map_or, Option.or_assoc]
      cases e.1 == k <;> rfl
  rw [Table.ofList, hfold, find?_empty, Option.or_none]

/-- Looking into a table put over another one. -/
theorem find?_union {u : Table α} (hu : u.keys.Nodup) (t : Table α) (k : String) :
    (t.union u).find? k = (u.find? k).or (t.find? k) := by
  obtain ⟨entries⟩ := u
  simp only [Table.union, Table.keys] at *
  induction entries generalizing t with
  | nil => rfl
  | cons e rest ih =>
    obtain ⟨k', v⟩ := e
    rw [List.map_cons, List.nodup_cons] at hu
    rw [List.foldl_cons, ih _ hu.2, find?_insert]
    simp only [Table.find?, List.lookup_cons]
    by_cases hk : k = k'
    · subst hk
      -- the entry is the only one of its key, so that no later one takes its place
      have hrest : rest.lookup k = none := by
        rw [List.lookup_eq_none_iff]
        intro e he
        simpa using fun heq : k = e.1 => hu.1 (List.mem_map.mpr ⟨e, he, heq.symm⟩)
      simp [hrest]
    · rw [beq_false_of_ne hk]
      rfl

end ClassDocs.Table
