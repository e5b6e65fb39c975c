import Overload.Proofs.Registration
import Overload.Standard

/-!
# Installing the standard classes

The installation declares seven classes and registers their instances, in a registry that may hold
anything already. Since each class gets the next id, the whole of it is known in advance: it is a
list of declarations followed by a list of registrations (`Standard.install_eq`), both read off
tables in which the classes go by their places (`Standard.table`, `Standard.rows`).

Only a name that is taken can stop the declarations, and then the ones before it stand. The
registrations cannot fail at all. By `Registry.Permits` there is nothing to trace through the
intermediate registries: that the rows differ, that the superclass instances are among the rows and
that none comes too late are facts about the table. What was there before is not touched, since a
new class is none of the old ones (`Registry.Gains`).
-/

namespace Overload

namespace MethodRecord

theorem mem_names_insert {record : MethodRecord} {name m : String} {imp : Value} :
    m ∈ (record.insert name imp).names ↔ m = name ∨ m ∈ record.names := by
  rw [← isSome_get?_iff, ← isSome_get?_iff]
  by_cases h : m = name
  · simp [h]
  · simp [h, get?_insert_of_ne record imp h]

theorem mem_names_ofList {methods : List (String × Value)} {m : String} :
    m ∈ (ofList methods).names ↔ m ∈ methods.map Prod.fst := by
  suffices h : ∀ record : MethodRecord,
      m ∈ (methods.foldl (fun r q => r.insert q.1 q.2) record).names
        ↔ m ∈ methods.map Prod.fst ∨ m ∈ record.names from
    (h empty).trans (or_iff_left (List.not_mem_nil))
  induction methods with
  | nil => simp
  | cons q methods ih =>
      intro record
      rw [List.foldl_cons, ih, mem_names_insert, List.map_cons, List.mem_cons]
      grind

end MethodRecord

namespace Registry

variable {r r' : Registry} {d : ClassDecl} {ds : List ClassDecl} {qs : List Registration}

/-! ## Several classes -/

/-- The registry with more classes, in the order of the list. -/
def extendAll (r : Registry) (ds : List ClassDecl) : Registry := ds.foldl extend r

theorem extendAll_cons : r.extendAll (d :: ds) = (r.extend d).extendAll ds := rfl

theorem entries_extendAll (r : Registry) (ds : List ClassDecl) :
    (r.extendAll ds).entries
      = r.entries ++ ds.mapIdx fun i d => { id := ⟨r.entries.length + i⟩, decl := d } := by
  induction ds generalizing r with
  | nil => simp [extendAll]
  | cons d ds ih =>
      rw [extendAll_cons, ih]
      simp [extend, List.mapIdx_cons, Nat.add_assoc, Nat.add_comm 1]

theorem isClosed_extendAll (r : Registry) (ds : List ClassDecl) :
    (r.extendAll ds).isClosed = r.isClosed := by
  induction ds generalizing r with
  | nil => rfl
  | cons d ds ih => exact ih (r.extend d)

theorem instance?_extendAll (r : Registry) (ds : List ClassDecl) (c : ClassId) (ty : TypeCon) :
    (r.extendAll ds).instance? c ty = r.instance? c ty := by
  induction ds generalizing r with
  | nil => rfl
  | cons d ds ih => rw [extendAll_cons, ih, instance?_extend]

theorem classByName?_extendAll_of_ne {name : String} (h : ∀ d ∈ ds, d.name ≠ name) :
    (r.extendAll ds).classByName? name = r.classByName? name := by
  induction ds generalizing r with
  | nil => rfl
  | cons d ds ih =>
      rw [List.forall_mem_cons] at h
      rw [extendAll_cons, ih h.2, classByName?_extend, if_neg (Ne.symm h.1)]

/-- Every declaration is admitted in its turn. -/
def AdmitsAll : Registry → List ClassDecl → Prop
  | _, [] => True
  | r, d :: ds => r.Admits d ∧ (r.extend d).AdmitsAll ds

theorem AdmitsAll.free (h : r.AdmitsAll ds) :
    (∀ d ∈ ds, r.classByName? d.name = none) ∧ (ds.map ClassDecl.name).Nodup := by
  induction ds generalizing r with
  | nil => simp
  | cons d ds ih =>
      obtain ⟨hd, hds⟩ := h
      obtain ⟨hfree, hnodup⟩ := ih hds
      -- what the larger registry does not know differs from `d`
      have hother : ∀ d' ∈ ds, d'.name ≠ d.name ∧ r.classByName? d'.name = none := by
        intro d' hd'
        have hnone := hfree d' hd'
        rw [classByName?_extend] at hnone
        by_cases hname : d'.name = d.name
        · simp [hname] at hnone
        · exact ⟨hname, by simpa [hname] using hnone⟩
      rw [List.forall_mem_cons, List.map_cons, List.nodup_cons]
      refine ⟨⟨hd.isNew, fun d' hd' => (hother d' hd').2⟩, ?_, hnodup⟩
      rw [List.mem_map]
      rintro ⟨d', hd', hname⟩
      exact (hother d' hd').1 hname

theorem AdmitsAll.classByName? (h : r.AdmitsAll ds) {i : Nat} (hi : ds[i]? = some d) :
    (r.extendAll ds).classByName? d.name = some ⟨r.entries.length + i⟩ := by
  induction ds generalizing r i with
  | nil => cases hi
  | cons d₀ ds ih =>
      obtain ⟨-, hds⟩ := h
      rw [extendAll_cons]
      cases i with
      | zero =>
          cases hi
          rw [classByName?_extendAll_of_ne, classByName?_extend, if_pos rfl]
          · rfl
          · intro d' hd' hname
            have hnone := hds.free.1 d' hd'
            rw [classByName?_extend, if_pos hname] at hnone
            cases hnone
      | succ i =>
          rw [ih hds hi]
          simp [extend, Nat.add_assoc, Nat.add_comm 1]

theorem admitsAll_of_free (hopen : r.isClosed = false)
    (hfree : ∀ d ∈ ds, r.classByName? d.name = none) (hnodup : (ds.map ClassDecl.name).Nodup)
    (hsup : ∀ i d, ds[i]? = some d → ∀ c ∈ d.superclasses, c.index < r.entries.length + i) :
    r.AdmitsAll ds := by
  induction ds generalizing r with
  | nil => trivial
  | cons d ds ih =>
      rw [List.forall_mem_cons] at hfree
      rw [List.map_cons, List.nodup_cons] at hnodup
      refine ⟨⟨hopen, hfree.1, hsup 0 d rfl⟩, ih hopen ?_ hnodup.2 ?_⟩
      · intro d' hd'
        have hne : d'.name ≠ d.name := fun h => hnodup.1 (h ▸ List.mem_map_of_mem hd')
        rw [classByName?_extend, if_neg hne]
        exact hfree.2 d' hd'
      · intro i d' hi c hc
        have hlt := hsup (i + 1) d' hi c hc
        simp only [extend, List.length_append, List.length_singleton]
        omega

theorem Coherent.extendAll (hr : r.Coherent) (h : r.AdmitsAll ds) : (r.extendAll ds).Coherent := by
  induction ds generalizing r with
  | nil => exact hr
  | cons d ds ih => exact ih (hr.extend h.1) h.2

/-! ## What is gained -/

/-- `r'` is `r` with further classes and with instances for these. -/
structure Gains (r : Registry) (ds : List ClassDecl) (qs : List Registration) (r' : Registry) :
    Prop where
  isClosed_eq : r'.isClosed = r.isClosed
  /-- The old classes are as they were, with their instances. -/
  entries_eq : r'.entries.take r.entries.length = r.entries
  classes_eq : r'.classes = r.classes ++ ds.mapIdx fun i d => (⟨r.entries.length + i⟩, d)
  name_old : ∀ name, (∀ d ∈ ds, d.name ≠ name) → r'.classByName? name = r.classByName? name
  name_new : ∀ i d, ds[i]? = some d → r'.classByName? d.name = some ⟨r.entries.length + i⟩
  instance?_iff : ∀ c ty record, r'.instance? c ty = some record
    ↔ r.instance? c ty = some record ∨ ⟨c, ty, record⟩ ∈ qs

theorem AdmitsAll.gains (h : r.AdmitsAll ds) : r.Gains ds [] (r.extendAll ds) where
  isClosed_eq := isClosed_extendAll r ds
  entries_eq := by rw [entries_extendAll, List.take_left]
  classes_eq := by
    rw [classes, classes, entries_extendAll, List.map_append]
    simp [List.mapIdx_eq_zipIdx_map]
  name_old _ := classByName?_extendAll_of_ne
  name_new _ _ := h.classByName?
  instance?_iff c ty record := by simp [instance?_extendAll]

theorem Takes.isClosed_eq (h : r.Takes qs r') : r'.isClosed = r.isClosed := by
  induction h with
  | nil r => rfl
  | cons _ _ ih => exact ih

theorem Takes.take_entries (h : r.Takes qs r') {n : Nat} (hn : ∀ q ∈ qs, n ≤ q.cls.index) :
    r'.entries.take n = r.entries.take n := by
  induction h with
  | nil r => rfl
  | @cons r r' q qs e _ _ ih =>
      rw [List.forall_mem_cons] at hn
      rw [ih hn.2]
      apply List.ext_getElem?
      intro i
      rw [List.getElem?_take, List.getElem?_take, getElem?_insert]
      by_cases hi : i < n
      · have hne : q.cls.index ≠ i := by omega
        simp [hi, hne]
      · simp [hi]

/-- Instances of the new classes come on top. -/
theorem Gains.takes (h : r.Gains ds [] r') {r'' : Registry} (hqs : r'.Takes qs r'')
    (hnew : ∀ q ∈ qs, r.entries.length ≤ q.cls.index) : r.Gains ds qs r'' where
  isClosed_eq := hqs.isClosed_eq.trans h.isClosed_eq
  entries_eq := (hqs.take_entries hnew).trans h.entries_eq
  classes_eq := hqs.classes_eq.1.trans h.classes_eq
  name_old name hname := by
    rw [classByName?, hqs.classes_eq.2]
    exact h.name_old name hname
  name_new i d hi := by
    rw [classByName?, hqs.classes_eq.2]
    exact h.name_new i d hi
  instance?_iff c ty record := by
    rw [hqs.instance?_eq_some_iff, h.instance?_iff]
    simp

end Registry

/-! ## Several declarations -/

namespace Build

variable {d : ClassDecl} {ds : List ClassDecl} {b b' : Building}

theorem declare_of_admits (h : b.registry.Admits d) : Build.declare d b
    = .ok ⟨b.registry.entries.length⟩ { b with registry := b.registry.extend d } := by
  have hdeclare := Registry.declare_eq_ok_iff.mpr ⟨h, rfl, rfl⟩
  have hcheck : Build.check (·.declare d) b
      = .ok (⟨b.registry.entries.length⟩, b.registry.extend d) b := by
    rw [Build.check_eq, hdeclare]
  rw [Build.declare, bind_of_ok hcheck]
  rfl

theorem admits_of_declare {c : ClassId} (h : Build.declare d b = .ok c b') :
    b.registry.Admits d := by
  cases hdeclare : b.registry.declare d with
  | error err =>
      have hcheck : Build.check (·.declare d) b = .error err b := by rw [Build.check_eq, hdeclare]
      rw [Build.declare, bind_of_error hcheck] at h
      cases h
  | ok q => exact (Registry.declare_eq_ok_iff.mp hdeclare).1

theorem declare_of_closed (h : b.registry.isClosed = true) (d : ClassDecl) :
    Build.declare d b = .error .closed b := by
  have hcheck : Build.check (·.declare d) b = .error .closed b := by
    simp [Build.check_eq, Registry.declare, Registry.ensureOpen, h, bind, Except.bind]
  rw [Build.declare, bind_of_error hcheck]

theorem declare_of_taken (hopen : b.registry.isClosed = false)
    (h : (b.registry.classByName? d.name).isSome) :
    Build.declare d b = .error (.duplicateClass d.name) b := by
  have hcheck : Build.check (·.declare d) b = .error (.duplicateClass d.name) b := by
    simp [Build.check_eq, Registry.declare, Registry.ensureOpen, hopen, h, bind, Except.bind]
  rw [Build.declare, bind_of_error hcheck]

/-- The declarations one after another, up to the first that fails. -/
def declareAll : List ClassDecl → Build Unit
  | [] => return
  | d :: ds => do
      let _ ← declare d
      declareAll ds

theorem declareAll_of_admits (h : b.registry.AdmitsAll ds) :
    declareAll ds b = .ok () { b with registry := b.registry.extendAll ds } := by
  induction ds generalizing b with
  | nil => rfl
  | cons d ds ih =>
      rw [declareAll, bind_of_ok (declare_of_admits h.1), ih h.2]
      rfl

theorem admits_of_declareAll (h : declareAll ds b = .ok () b') : b.registry.AdmitsAll ds := by
  induction ds generalizing b with
  | nil => trivial
  | cons d ds ih =>
      cases hd : Build.declare d b with
      | error err b₁ =>
          rw [declareAll, bind_of_error hd] at h
          cases h
      | ok c b₁ =>
          have hadmits := admits_of_declare hd
          rw [declareAll, bind_of_ok (declare_of_admits hadmits)] at h
          exact ⟨hadmits, ih h⟩

theorem declareAll_append (ds ds' : List ClassDecl) :
    declareAll (ds ++ ds') = declareAll ds >>= fun _ => declareAll ds' := by
  induction ds with
  | nil => rw [declareAll, pure_bind, List.nil_append]
  | cons d ds ih => rw [List.cons_append, declareAll, declareAll, ih, bind_assoc]

/-- A taken name ends the declarations, and those before it stand. -/
theorem declareAll_of_taken {before after : List ClassDecl} (hbefore : b.registry.AdmitsAll before)
    (hopen : b.registry.isClosed = false) (h : (b.registry.classByName? d.name).isSome) :
    declareAll (before ++ d :: after) b
      = .error (.duplicateClass d.name) { b with registry := b.registry.extendAll before } := by
  have hname : (b.registry.extendAll before).classByName? d.name
      = b.registry.classByName? d.name := by
    refine Registry.classByName?_extendAll_of_ne fun d' hd' hname => ?_
    rw [← hname, hbefore.free.1 d' hd'] at h
    cases h
  rw [declareAll_append, bind_of_ok (declareAll_of_admits hbefore), declareAll]
  refine bind_of_error (declare_of_taken ?_ ?_)
  · exact (Registry.isClosed_extendAll _ _).trans hopen
  · rwa [← hname] at h

/-- A new class gets the next id. -/
theorem declare_bind_congr {n : Nat} {f : ClassId → Build α} {x : Build α}
    (hn : b.registry.entries.length = n)
    (hf : ∀ b', b'.registry.entries.length = n + 1 → f ⟨n⟩ b' = x b') :
    (Build.declare d >>= f) b = (Build.declare d >>= fun _ => x) b := by
  cases hd : Build.declare d b with
  | error err b' => rw [bind_of_error hd, bind_of_error hd]
  | ok c b' =>
      cases hd.symm.trans (declare_of_admits (admits_of_declare hd))
      rw [bind_of_ok hd, bind_of_ok hd, hn]
      apply hf
      simp [Registry.extend, hn]

end Build

/-! ## The table of the standard classes -/

namespace Standard

/-- A standard class. Its superclasses are given by their places in the table. -/
structure Class where
  name : String
  superclasses : List Nat
  ops : List Operation
  derivable : Bool

def table : List Class :=
  [ ⟨"Show", [], [.display], true⟩,
    ⟨"Eq", [], [.eq], true⟩,
    ⟨"Ord", [1], [.compare], false⟩,
    ⟨"Num", [], [.add, .sub, .mul, .negate], false⟩,
    ⟨"Functor", [], [.fmap], false⟩,
    ⟨"Applicative", [4], [.pure, .ap], false⟩,
    ⟨"Monad", [5], [.bind], false⟩ ]

/-- An instance of the class at a place of the table. -/
structure Row where
  place : Nat
  ops : List Operation
  ty : TypeCon
  deriving DecidableEq

def rows : List Row :=
  data.flatMap (fun ty => [⟨0, [.display], ty⟩, ⟨1, [.eq], ty⟩])
    ++ [.bool, .int, .float, .text].map (⟨2, [.compare], ·⟩)
    ++ [.int, .float].map (⟨3, [.add, .sub, .mul, .negate], ·⟩)
    ++ [⟨4, [.fmap], .list⟩, ⟨5, [.pure, .ap], .list⟩, ⟨6, [.bind], .list⟩]

/-! What the tables become in a registry that has `n` classes already. -/

def numbered (n : Nat) : Standard where
  shows := ⟨n⟩
  eq := ⟨n + 1⟩
  ord := ⟨n + 2⟩
  num := ⟨n + 3⟩
  functor := ⟨n + 4⟩
  applicative := ⟨n + 5⟩
  monad := ⟨n + 6⟩

def Class.decl (n : Nat) (k : Class) : ClassDecl where
  name := k.name
  superclasses := k.superclasses.map fun i => ⟨n + i⟩
  methods := k.ops.map Operation.name
  deriver := if k.derivable then some (.const (record k.ops)) else none

def Row.registration (n : Nat) (q : Row) : Registration := ⟨⟨n + q.place⟩, q.ty, record q.ops⟩

def decls (n : Nat) : List ClassDecl := table.map (Class.decl n)

def registrations (n : Nat) : List Registration := rows.map (Row.registration n)

/-- All declarations come before the first registration, and the ids are known in advance. -/
theorem install_eq {b : Building} {n : Nat} (hn : b.registry.entries.length = n) :
    install b = (do
      Build.declareAll (decls n)
      Registration.runAll (registrations n)
      return numbered n) b := by
  simp only [decls, table, List.map_cons, List.map_nil, Build.declareAll, bind_assoc, pure_bind]
  refine Build.declare_bind_congr hn fun b hn => Build.declare_bind_congr hn fun b hn =>
    Build.declare_bind_congr hn fun b hn => Build.declare_bind_congr hn fun b hn =>
    Build.declare_bind_congr hn fun b hn => Build.declare_bind_congr hn fun b hn =>
    Build.declare_bind_congr hn fun b _ => ?_
  refine congrFun ?_ b
  simp only [registrations, rows, data, register, Registration.runAll, Row.registration,
    List.flatMap_cons, List.flatMap_nil, List.map_cons, List.map_nil, List.cons_append,
    List.nil_append, List.append_nil, List.forM, bind_assoc, pure_bind]
  rfl

/-! ## Every registration is taken -/

/-- The superclasses of the class at a place of the table. -/
def above (i : Nat) : List Nat := table[i]?.elim [] Class.superclasses

theorem ops_of_mem_rows : ∀ q ∈ rows, table[q.place]?.map Class.ops = some q.ops := by decide

theorem nodup_rows : (rows.map fun q => (q.place, q.ty)).Nodup := by decide

theorem above_of_mem_rows :
    ∀ q ∈ rows, ∀ i ∈ above q.place, (i, q.ty) ∈ rows.map fun q => (q.place, q.ty) := by
  decide

/-- No instance comes before one that it needs. -/
theorem pairwise_rows : rows.Pairwise fun q q' => q'.place ∉ above q.place := by decide

theorem above_lt (i : Nat) : ∀ j ∈ above i, j < i := by
  by_cases hi : i < table.length
  · revert i
    decide
  · have hnone : table[i]? = none := List.getElem?_eq_none (Nat.not_lt.mp hi)
    simp [above, hnone]

theorem mem_names_record {ops : List Operation} {name : String} :
    name ∈ (record ops).names ↔ name ∈ ops.map Operation.name := by
  rw [record, MethodRecord.mem_names_ofList, List.map_map]
  rfl

section

variable {r : Registry} {n : Nat} (hn : r.entries.length = n)
include hn

theorem getElem?_classes_extendAll (i : Nat) :
    (r.extendAll (decls n)).classes[n + i]?
      = table[i]?.map fun k => (⟨n + i⟩, k.decl n) := by
  subst hn
  rw [Registry.classes, Registry.entries_extendAll, List.getElem?_map,
    List.getElem?_append_right (Nat.le_add_right _ _), Nat.add_sub_cancel_left,
    List.getElem?_mapIdx, decls, List.getElem?_map, Option.map_map, Option.map_map]
  rfl

theorem superclass_extendAll_iff {i : Nat} {s : ClassId} :
    (r.extendAll (decls n)).Superclass ⟨n + i⟩ s ↔ ∃ j ∈ above i, ⟨n + j⟩ = s := by
  rw [Registry.superclass_iff, getElem?_classes_extendAll hn]
  cases hi : table[i]? with
  | none => simp [above, hi]
  | some k => simp [above, hi, Class.decl]

theorem permits_registrations (hopen : r.isClosed = false) :
    (r.extendAll (decls n)).Permits (registrations n) := by
  have hplaces : (registrations n).map Registration.place
      = (rows.map fun q => (q.place, q.ty)).map fun q => (⟨n + q.1⟩, q.2) := by
    rw [registrations, List.map_map, List.map_map]
    rfl
  constructor
  · rw [Registry.isClosed_extendAll, hopen]
  · intro q hq
    obtain ⟨row, hrow, rfl⟩ := List.mem_map.mp hq
    obtain ⟨k, hk, hops⟩ := Option.map_eq_some_iff.mp (ops_of_mem_rows row hrow)
    have hclass := getElem?_classes_extendAll hn row.place
    rw [hk, Option.map_some] at hclass
    refine ⟨_, hclass, fun name => ?_⟩
    rw [Row.registration, mem_names_record, ← hops]
    rfl
  · intro q hq
    obtain ⟨row, -, rfl⟩ := List.mem_map.mp hq
    have hnone : r.entries[n + row.place]? = none :=
      List.getElem?_eq_none (by omega)
    rw [Registry.instance?_extendAll, Registry.instance?, Row.registration, hnone]
    rfl
  · rw [hplaces]
    refine nodup_rows.map ?_
    rintro ⟨i, ty⟩ ⟨j, ty'⟩ h
    simpa using h
  · intro q hq s hs
    obtain ⟨row, hrow, rfl⟩ := List.mem_map.mp hq
    obtain ⟨j, hj, rfl⟩ := (superclass_extendAll_iff hn).mp hs
    rw [hplaces]
    exact .inr (List.mem_map_of_mem (above_of_mem_rows row hrow j hj))

theorem takes_registrations (hr : (r.extendAll (decls n)).Coherent) (hopen : r.isClosed = false) :
    ∃ r', (r.extendAll (decls n)).Takes (registrations n) r' := by
  refine (permits_registrations hn hopen).takes ?_ ?_
  · rintro c ⟨e, he, hc⟩
    exact Nat.lt_irrefl _ (hr.superclass_lt he c hc)
  · refine List.pairwise_map.mpr (pairwise_rows.imp ?_)
    rintro q q' hq ⟨-, hs⟩
    obtain ⟨j, hj, heq⟩ := (superclass_extendAll_iff hn).mp hs
    obtain rfl : j = q'.place := Nat.add_left_cancel (ClassId.mk.inj heq)
    exact hq hj

/-- The classes that come first in the table are admitted if their names are free. -/
theorem admitsAll_decls (hopen : r.isClosed = false) {ds rest : List ClassDecl}
    (hds : decls n = ds ++ rest) (hfree : ∀ d ∈ ds, r.classByName? d.name = none) :
    r.AdmitsAll ds := by
  have hnodup : ((decls n).map ClassDecl.name).Nodup := by
    rw [decls, List.map_map]
    exact (by decide : (table.map Class.name).Nodup)
  rw [hds, List.map_append, List.nodup_append] at hnodup
  refine Registry.admitsAll_of_free hopen hfree hnodup.1 ?_
  intro i d hi c hc
  have hd : (decls n)[i]? = some d := by
    rw [hds, List.getElem?_append_left (List.getElem?_eq_some_iff.mp hi).1, hi]
  rw [decls, List.getElem?_map, Option.map_eq_some_iff] at hd
  obtain ⟨k, hk, rfl⟩ := hd
  obtain ⟨j, hj, rfl⟩ := List.mem_map.mp hc
  have hlt := above_lt i j (by simpa [above, hk] using hj)
  show n + j < r.entries.length + i
  omega

end

/-! ## The three outcomes -/

section

variable {b : Building} {n : Nat} (hn : b.registry.entries.length = n)
include hn

theorem install_of_closed (hclosed : b.registry.isClosed = true) :
    install b = .error .closed b := by
  rw [install_eq hn]
  refine bind_of_error ?_
  rw [decls, table, List.map_cons, Build.declareAll]
  exact bind_of_error (Build.declare_of_closed hclosed _)

theorem install_of_taken {before after : List ClassDecl} {d : ClassDecl}
    (hopen : b.registry.isClosed = false) (hdecls : decls n = before ++ d :: after)
    (hfree : ∀ d' ∈ before, b.registry.classByName? d'.name = none)
    (htaken : (b.registry.classByName? d.name).isSome) :
    install b
      = .error (.duplicateClass d.name) { b with registry := b.registry.extendAll before } := by
  have hbefore := admitsAll_decls hn hopen hdecls hfree
  rw [install_eq hn]
  refine bind_of_error ?_
  rw [hdecls]
  exact Build.declareAll_of_taken hbefore hopen htaken

theorem install_of_free (hb : b.registry.Coherent) (hopen : b.registry.isClosed = false)
    (hfree : ∀ d ∈ decls n, b.registry.classByName? d.name = none) :
    ∃ b', install b = .ok (numbered n) b' := by
  have hadmits := admitsAll_decls hn hopen (List.append_nil _).symm hfree
  obtain ⟨r', htakes⟩ := takes_registrations hn (hb.extendAll hadmits) hopen
  obtain ⟨b', hrun, -⟩ := Registration.runAll_of_takes
    (b := { b with registry := b.registry.extendAll (decls n) }) htakes
  rw [install_eq hn, bind_of_ok (Build.declareAll_of_admits hadmits), bind_of_ok hrun]
  exact ⟨b', rfl⟩

/-- Whatever registry the classes are installed in. -/
theorem gains_of_install {std : Standard} {b' : Building} (h : install b = .ok std b') :
    std = numbered n ∧ b.registry.Gains (decls n) (registrations n) b'.registry := by
  rw [install_eq hn] at h
  cases hdecls : Build.declareAll (decls n) b with
  | error err b₁ =>
      rw [bind_of_error hdecls] at h
      cases h
  | ok _ b₁ =>
      have hadmits := Build.admits_of_declareAll hdecls
      cases hdecls.symm.trans (Build.declareAll_of_admits hadmits)
      rw [bind_of_ok hdecls] at h
      cases hrun : Registration.runAll (registrations n)
          { b with registry := b.registry.extendAll (decls n) } with
      | error err b₂ =>
          rw [bind_of_error hrun] at h
          cases h
      | ok _ b₂ =>
          rw [bind_of_ok hrun] at h
          cases h
          refine ⟨rfl, hadmits.gains.takes (Registration.takes_of_runAll hrun) fun q hq => ?_⟩
          obtain ⟨row, -, rfl⟩ := List.mem_map.mp hq
          exact hn ▸ Nat.le_add_right n row.place

end

end Standard

/-- In a registry that is built from nothing, the standard classes can be installed exactly if it is
open and none of their names is taken. They get the next ids and their instances, and nothing else
changes. In an open registry only a taken name stops the installation; the first one is reported,
the classes before it have been added without instances, and again nothing else changes. -/
theorem install_exact (trace : Trace) (log : Array Invocation) (ops : List RegistryOp) :
    let b := RegistryOp.runAll { trace, log } ops
    let r := b.registry
    let n := r.entries.length
    ((∃ std b', Standard.install b = .ok std b') ↔ r.isClosed = false
        ∧ ∀ name ∈ ["Show", "Eq", "Ord", "Num", "Functor", "Applicative", "Monad"],
            r.classByName? name = none)
      ∧ (∀ std b', Standard.install b = .ok std b' → std = .numbered n
          ∧ r.Gains (Standard.decls n) (Standard.registrations n) b'.registry)
      ∧ (r.isClosed = true → Standard.install b = .error .closed b)
      ∧ ∀ err b', r.isClosed = false → Standard.install b = .error err b' →
          ∃ before d after, Standard.decls n = before ++ d :: after
            ∧ (r.classByName? d.name).isSome ∧ (∀ d' ∈ before, r.classByName? d'.name = none)
            ∧ err = .duplicateClass d.name ∧ b' = { b with registry := r.extendAll before }
            ∧ r.Gains before [] b'.registry := by
  intro b r n
  have hr : r.Coherent := RegistryOp.coherent_runAll ops Registry.coherent_empty
  have hnames : (Standard.decls n).map ClassDecl.name
      = ["Show", "Eq", "Ord", "Num", "Functor", "Applicative", "Monad"] := rfl
  rw [← hnames, List.forall_mem_map]
  clear_value b
  cases hopen : r.isClosed with
  | true =>
      have hrun : Standard.install b = .error .closed b := Standard.install_of_closed rfl hopen
      simp [hrun]
  | false =>
      cases htaken : (Standard.decls n).find? fun d => (r.classByName? d.name).isSome with
      | none =>
          have hfree : ∀ d ∈ Standard.decls n, r.classByName? d.name = none := by
            simpa [List.find?_eq_none] using htaken
          obtain ⟨b', hrun⟩ := Standard.install_of_free rfl hr hopen hfree
          refine ⟨⟨fun _ => ⟨rfl, hfree⟩, fun _ => ⟨_, _, hrun⟩⟩,
            fun _ _ => Standard.gains_of_install rfl, by simp, ?_⟩
          intro err b'' _ hrun'
          cases hrun.symm.trans hrun'
      | some d =>
          obtain ⟨before, after, hdecls, hd, hfree⟩ := (firstWith_iff fun _ => Iff.rfl).mpr htaken
          have hfree : ∀ d' ∈ before, r.classByName? d'.name = none := by simpa using hfree
          have hadmits := Standard.admitsAll_decls rfl hopen hdecls hfree
          have hrun := Standard.install_of_taken rfl hopen hdecls hfree hd
          refine ⟨⟨?_, fun h => ?_⟩, ?_, by simp, ?_⟩
          · rintro ⟨std, b', hrun'⟩
            cases hrun.symm.trans hrun'
          · have hnone := h.2 d (hdecls ▸ List.mem_append_right before List.mem_cons_self)
            rw [hnone] at hd
            cases hd
          · intro std b' hrun'
            cases hrun.symm.trans hrun'
          · intro err b' _ hrun'
            cases hrun.symm.trans hrun'
            exact ⟨before, d, after, hdecls, hd, hfree, rfl, rfl, hadmits.gains⟩

/-- One registry has a class of its own, with an instance; the other has another `Num`. -/
theorem install_exact_occupied :
    let own := RegistryOp.runAll {} [.declare { name := "Pretty", methods := ["pretty"] },
      .register ⟨0⟩ .list (.ofList [("pretty", .unit)])]
    let taken := RegistryOp.runAll {} [.declare { name := "Num" }]
    (∃ b', Standard.install own = .ok (.numbered 1) b'
        ∧ b'.registry.instance? ⟨0⟩ .list = some (.ofList [("pretty", .unit)])
        ∧ b'.registry.instance? ⟨3⟩ .float = some (Standard.record [.compare]))
      ∧ ∃ b', Standard.install taken = .error (.duplicateClass "Num") b'
        ∧ b'.registry.classByName? "Num" = some ⟨0⟩ := by
  intro own taken
  constructor
  · obtain ⟨hiff, hok, -, -⟩ := install_exact {} #[]
      [.declare { name := "Pretty", methods := ["pretty"] },
        .register ⟨0⟩ .list (.ofList [("pretty", .unit)])]
    obtain ⟨std, b', hrun⟩ := hiff.mpr (by decide)
    obtain ⟨rfl, hgains⟩ := hok std b' hrun
    refine ⟨b', hrun, (hgains.instance?_iff _ _ _).mpr (.inl rfl),
      (hgains.instance?_iff _ _ _).mpr (.inr ?_)⟩
    exact List.mem_map.mpr ⟨⟨2, [.compare], .float⟩, by decide, rfl⟩
  · obtain ⟨hiff, -, -, herror⟩ := install_exact {} #[] [.declare { name := "Num" }]
    cases hrun : Standard.install taken with
    | ok std b' => exact absurd (hiff.mp ⟨std, b', hrun⟩) (by decide)
    | error err b' =>
        obtain ⟨before, d, after, hdecls, hd, hfree, rfl, -, hgains⟩ := herror err b' rfl hrun
        have hname : ∀ d ∈ Standard.decls 1, (taken.registry.classByName? d.name).isSome →
            d.name = "Num" := by decide
        have hd := hname d (hdecls ▸ List.mem_append_right before List.mem_cons_self) hd
        refine ⟨b', by rw [hd], ?_⟩
        rw [hgains.name_old "Num" fun d' hd' heq => ?_]
        · rfl
        · cases heq ▸ hfree d' hd'

end Overload
