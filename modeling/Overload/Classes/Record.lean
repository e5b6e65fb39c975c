import Overload.Values.Basic

/-!
# Method records

The implementations that one type gives for the methods of a class, sorted by name. Adding a
name again replaces its implementation.
-/

namespace Overload

structure MethodRecord where
  entries : List (String × Value) := []
  /-- The names increase. -/
  sorted : (entries.map Prod.fst).Pairwise (· < ·) := by exact .nil

namespace MethodRecord

def empty : MethodRecord := {}

def insertEntry (name : String) (imp : Value) : List (String × Value) → List (String × Value)
  | [] => [(name, imp)]
  | (n, v) :: rest =>
      if name < n then (name, imp) :: (n, v) :: rest
      else if name = n then (name, imp) :: rest
      else (n, v) :: insertEntry name imp rest

theorem mem_map_insertEntry {name m : String} {imp : Value} {l : List (String × Value)}
    (h : m ∈ (insertEntry name imp l).map Prod.fst) : m = name ∨ m ∈ l.map Prod.fst := by
  induction l with
  | nil => simpa [insertEntry] using h
  | cons q l ih =>
      obtain ⟨n, v⟩ := q
      rw [insertEntry] at h
      split at h
      · simpa using h
      · split at h
        · next heq =>
            subst heq
            simpa using h
        · rcases List.mem_cons.mp h with rfl | h
          · exact .inr List.mem_cons_self
          · exact (ih h).imp_right (List.mem_cons_of_mem _)

theorem pairwise_insertEntry (name : String) (imp : Value) {l : List (String × Value)}
    (h : (l.map Prod.fst).Pairwise (· < ·)) :
    ((insertEntry name imp l).map Prod.fst).Pairwise (· < ·) := by
  induction l with
  | nil => simp [insertEntry]
  | cons q l ih =>
      obtain ⟨n, v⟩ := q
      obtain ⟨hn, hl⟩ := List.pairwise_cons.mp h
      rw [insertEntry]
      split
      · next hlt =>
          refine List.pairwise_cons.mpr ⟨fun m hm => ?_, h⟩
          rcases List.mem_cons.mp hm with rfl | hm
          · exact hlt
          · exact String.lt_trans hlt (hn m hm)
      · split
        · next heq =>
            subst heq
            exact h
        · next hlt hne =>
            refine List.pairwise_cons.mpr ⟨fun m hm => ?_, ih hl⟩
            rcases mem_map_insertEntry hm with rfl | hm
            · exact Std.lt_of_le_of_ne (String.not_lt.mp hlt) (Ne.symm hne)
            · exact hn m hm

def insert (r : MethodRecord) (name : String) (imp : Value) : MethodRecord :=
  ⟨insertEntry name imp r.entries, pairwise_insertEntry name imp r.sorted⟩

def ofList (methods : List (String × Value)) : MethodRecord :=
  methods.foldl (fun r (name, imp) => r.insert name imp) empty

def get? (r : MethodRecord) (name : String) : Option Value := r.entries.lookup name

def names (r : MethodRecord) : List String := r.entries.map Prod.fst

theorem pairwise_names (r : MethodRecord) : r.names.Pairwise (· < ·) := r.sorted

theorem lookup_insertEntry_self (name : String) (imp : Value) (l : List (String × Value)) :
    (insertEntry name imp l).lookup name = some imp := by
  induction l with
  | nil => simp [insertEntry]
  | cons e rest ih =>
      obtain ⟨n, v⟩ := e
      rw [insertEntry]
      split
      · simp
      · split
        · simp
        · rename_i hne
          simp [List.lookup_cons, beq_false_of_ne hne, ih]

theorem lookup_insertEntry_of_ne {name other : String} (imp : Value) (l : List (String × Value))
    (h : other ≠ name) : (insertEntry name imp l).lookup other = l.lookup other := by
  induction l with
  | nil => simp [insertEntry, List.lookup_cons, beq_false_of_ne h]
  | cons e rest ih =>
      obtain ⟨n, v⟩ := e
      rw [insertEntry]
      split
      · simp [List.lookup_cons, beq_false_of_ne h]
      · split
        · rename_i heq
          subst heq
          simp [List.lookup_cons, beq_false_of_ne h]
        · simp [List.lookup_cons, ih]

@[simp] theorem get?_insert_self (r : MethodRecord) (name : String) (imp : Value) :
    (r.insert name imp).get? name = some imp :=
  lookup_insertEntry_self ..

theorem get?_insert_of_ne {name other : String} (r : MethodRecord) (imp : Value)
    (h : other ≠ name) : (r.insert name imp).get? other = r.get? other :=
  lookup_insertEntry_of_ne _ _ h

end MethodRecord

end Overload
