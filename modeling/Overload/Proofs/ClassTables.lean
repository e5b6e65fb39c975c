import Mathlib.Logic.Relation
import Overload.Classes.Build

/-!
# What a registry keeps

A registry has two tables, the classes in the order of declaration and their ids by name, and each
class has a table of instances. `Registry.Coherent` says how they fit together, and every operation
keeps it, whether it succeeds or fails and whatever ids, records and derivers it is given. An
operation does one of four things (`RegistryOp.run_cases`): it declares a class, it adds a record
that was accepted, it closes the registry, or it leaves everything as it was.

Only the direct superclasses are asked for when an instance is registered. That all superclasses
above have instances too is a consequence (`Coherent.hasInstance_of_above`): what was asked for was
registered in the same way.
-/

namespace Overload

theorem bind_eq_ok_iff {ε α β : Type} {x : Except ε α} {f : α → Except ε β} {b : β} :
    x >>= f = .ok b ↔ ∃ a, x = .ok a ∧ f a = .ok b := by
  cases x with
  | error e => simp [bind, Except.bind]
  | ok a => simp [bind, Except.bind]

theorem MethodRecord.isSome_get?_iff {record : MethodRecord} {name : String} :
    (record.get? name).isSome ↔ name ∈ record.names := by
  rw [get?, names]
  induction record.entries with
  | nil => simp
  | cons q entries ih =>
      rw [List.lookup_cons, List.map_cons, List.mem_cons, ← ih]
      by_cases h : name = q.1
      · simp [h]
      · simp [beq_false_of_ne h, h]

namespace Registry

variable {r r' : Registry} {c : ClassId} {ty : TypeCon} {record : MethodRecord} {d : ClassDecl}

/-! ## What the operations ask for -/

theorem ensureOpen_eq_ok_iff {u : Unit} : r.ensureOpen = .ok u ↔ r.isClosed = false := by
  rw [ensureOpen]
  cases r.isClosed with
  | true => simp
  | false => simp

theorem entry_eq_ok_iff {e : ClassEntry} : r.entry c = .ok e ↔ r.entries[c.index]? = some e := by
  rw [entry]
  cases r.entries[c.index]? with
  | none => simp
  | some e' => simp

theorem forM_entry_eq_ok_iff {cs : List ClassId} {u : Unit} :
    (cs.forM fun c => discard (r.entry c)) = .ok u ↔ ∀ c ∈ cs, c.index < r.entries.length := by
  induction cs with
  | nil => simp [List.forM, pure, Except.pure]
  | cons c cs ih =>
      have hone : (∃ u : Unit, discard (r.entry c) = .ok u) ↔ c.index < r.entries.length := by
        rw [entry]
        by_cases h : c.index < r.entries.length
        · simp [h, discard, Functor.mapConst, Except.map]
        · simp [h, discard, Functor.mapConst, Except.map]
      rw [List.forall_mem_cons, ← ih, ← hone, List.forM, bind_eq_ok_iff]
      simp

/-- The registry with one more class. -/
def extend (r : Registry) (d : ClassDecl) : Registry :=
  { r with
    entries := r.entries ++ [{ id := ⟨r.entries.length⟩, decl := d }]
    ids := (d.name, ⟨r.entries.length⟩) :: r.ids }

/-- What is asked of a declaration. -/
structure Admits (r : Registry) (d : ClassDecl) : Prop where
  isOpen : r.isClosed = false
  isNew : r.classByName? d.name = none
  superclasses : ∀ c ∈ d.superclasses, c.index < r.entries.length

theorem declare_eq_ok_iff :
    r.declare d = .ok (c, r') ↔ r.Admits d ∧ c = ⟨r.entries.length⟩ ∧ r' = r.extend d := by
  rw [declare]
  cases hname : r.classByName? d.name with
  | some c' =>
      simp only [bind_eq_ok_iff]
      constructor
      · rintro ⟨-, -, h⟩
        cases h
      · rintro ⟨h, -⟩
        cases hname.symm.trans h.isNew
  | none =>
      simp only [bind_eq_ok_iff, ensureOpen_eq_ok_iff]
      constructor
      · rintro ⟨-, hopen, h⟩
        obtain ⟨u, hsup, heq⟩ := bind_eq_ok_iff.mp h
        cases heq
        exact ⟨⟨hopen, hname, forM_entry_eq_ok_iff.mp hsup⟩, rfl, rfl⟩
      · rintro ⟨h, rfl, rfl⟩
        exact ⟨(), h.isOpen,
          bind_eq_ok_iff.mpr ⟨(), forM_entry_eq_ok_iff.mpr h.superclasses, rfl⟩⟩

/-- What is asked of a record for the class with the entry `e`. -/
structure Accepts (r : Registry) (c : ClassId) (ty : TypeCon) (record : MethodRecord)
    (e : ClassEntry) : Prop where
  isOpen : r.isClosed = false
  entry : r.entries[c.index]? = some e
  superclasses : ∀ s ∈ e.decl.superclasses, r.hasInstance s ty = true
  isNew : e.instances.lookup ty = none
  names : ∀ name, name ∈ record.names ↔ name ∈ e.decl.methods

theorem accept_eq_ok_iff :
    r.accept c ty record = .ok d ↔ ∃ e, r.Accepts c ty record e ∧ e.decl = d := by
  rw [accept]
  simp only [bind_eq_ok_iff, ensureOpen_eq_ok_iff, entry_eq_ok_iff]
  constructor
  · rintro ⟨-, hopen, e, hentry, h⟩
    cases hsup : e.decl.superclasses.find? fun s => !r.hasInstance s ty with
    | some s =>
        rw [hsup] at h
        obtain ⟨d', -, h⟩ := bind_eq_ok_iff.mp h
        cases h
    | none =>
        rw [hsup] at h
        cases hnew : e.instances.lookup ty with
        | some record' =>
            rw [hnew] at h
            cases h
        | none =>
            rw [hnew] at h
            cases hmissing : e.decl.methods.find? fun m => (record.get? m).isNone with
            | some m =>
                rw [hmissing] at h
                cases h
            | none =>
                rw [hmissing] at h
                cases hextra : record.names.find? fun m => !e.decl.hasMethod m with
                | some m =>
                    rw [hextra] at h
                    cases h
                | none =>
                    rw [hextra] at h
                    cases h
                    rw [List.find?_eq_none] at hsup hmissing hextra
                    refine
                      ⟨e, ⟨hopen, hentry, by simpa using hsup, hnew, fun name => ⟨?_, ?_⟩⟩, rfl⟩
                    · simpa [ClassDecl.hasMethod] using hextra name
                    · intro hname
                      have hget := hmissing name hname
                      rw [← MethodRecord.isSome_get?_iff]
                      simpa [Option.isSome_iff_ne_none] using hget
  · rintro ⟨e, h, rfl⟩
    have hsup : e.decl.superclasses.find? (fun s => !r.hasInstance s ty) = none := by
      simpa [List.find?_eq_none] using h.superclasses
    have hmissing : e.decl.methods.find? (fun m => (record.get? m).isNone) = none := by
      rw [List.find?_eq_none]
      intro name hname
      have hget := MethodRecord.isSome_get?_iff.mpr ((h.names name).mpr hname)
      simpa [Option.isSome_iff_ne_none] using hget
    have hextra : record.names.find? (fun m => !e.decl.hasMethod m) = none := by
      rw [List.find?_eq_none]
      intro name hname
      simpa [ClassDecl.hasMethod] using (h.names name).mp hname
    refine ⟨(), h.isOpen, e, h.entry, ?_⟩
    rw [hsup, h.isNew, hmissing, hextra]
    rfl

/-! ## What the operations change -/

theorem lookup_eq_ok_iff : r.lookup c ty = .ok record ↔ r.instance? c ty = some record := by
  simp only [lookup, entry, instance?]
  cases r.entries[c.index]? with
  | none => simp [bind, Except.bind]
  | some entry =>
      simp only [bind, Except.bind, Option.bind_some]
      cases entry.instances.lookup ty with
      | none => simp
      | some record' => simp

theorem getElem?_extend {i : Nat} {e : ClassEntry} :
    (r.extend d).entries[i]? = some e ↔
      r.entries[i]? = some e
        ∨ (i = r.entries.length ∧ e = { id := ⟨r.entries.length⟩, decl := d }) := by
  show (r.entries ++ [_])[i]? = some e ↔ _
  rw [List.getElem?_append]
  by_cases hi : i < r.entries.length
  · have hne : i ≠ r.entries.length := by omega
    simp [hi, hne]
  · have hnone : r.entries[i]? = none := by simp; omega
    rw [if_neg hi, hnone, List.getElem?_singleton]
    by_cases heq : i = r.entries.length
    · simp [heq, eq_comm]
    · have hpos : i - r.entries.length ≠ 0 := by omega
      simp [hpos, heq]

theorem classByName?_extend (name : String) : (r.extend d).classByName? name
    = if name = d.name then some ⟨r.entries.length⟩ else r.classByName? name := by
  show List.lookup name (_ :: _) = _
  rw [List.lookup_cons]
  by_cases hname : name = d.name
  · simp [hname]
  · simp [beq_false_of_ne hname, hname, classByName?]

theorem getElem?_insert {i : Nat} :
    (r.insert c ty record).entries[i]? = r.entries[i]?.map fun e =>
      if c.index = i then { e with instances := (ty, record) :: e.instances } else e := by
  show (r.entries.modify c.index _)[i]? = _
  rw [List.getElem?_modify]
  cases r.entries[i]? with
  | none => rfl
  | some e => rfl

/-- The new record is found, and so is every record for another class or type. -/
theorem instance?_insert (c' : ClassId) (ty' : TypeCon) (hc : c.index < r.entries.length) :
    (r.insert c ty record).instance? c' ty'
      = if c' = c ∧ ty' = ty then some record else r.instance? c' ty' := by
  have hcc : c.index = c'.index ↔ c' = c := by
    cases c; cases c'
    simp [eq_comm]
  rw [instance?, instance?, getElem?_insert]
  by_cases h : c' = c
  · subst h
    rw [List.getElem?_eq_getElem hc]
    by_cases hty : ty' = ty
    · simp [hty]
    · simp [hty, List.lookup_cons, beq_false_of_ne hty]
  · cases r.entries[c'.index]? with
    | none => simp [h]
    | some e => simp [h, hcc]

theorem instance?_extend (c' : ClassId) (ty' : TypeCon) :
    (r.extend d).instance? c' ty' = r.instance? c' ty' := by
  rw [instance?, instance?]
  by_cases hlt : c'.index < r.entries.length
  · show (r.entries ++ [_])[c'.index]?.bind _ = _
    rw [List.getElem?_append_left hlt]
  · have hnone : r.entries[c'.index]? = none := by simp; omega
    rw [hnone]
    cases he : (r.extend d).entries[c'.index]? with
    | none => rfl
    | some e =>
        rcases getElem?_extend.mp he with h | ⟨-, rfl⟩
        · rw [hnone] at h
          cases h
        · rfl

/-! ## The invariant -/

/-- How the tables of a registry fit together. -/
structure Coherent (r : Registry) : Prop where
  id_eq {i : Nat} {e : ClassEntry} : r.entries[i]? = some e → e.id = ⟨i⟩
  /-- The declared names, each with the id of its class. -/
  classByName?_iff {name : String} {c : ClassId} : r.classByName? name = some c
    ↔ ∃ e, r.entries[c.index]? = some e ∧ e.decl.name = name
  superclass_lt {i : Nat} {e : ClassEntry} : r.entries[i]? = some e →
    ∀ c ∈ e.decl.superclasses, c.index < i
  superclass_instance {i : Nat} {e : ClassEntry} {ty : TypeCon} : r.entries[i]? = some e →
    r.hasInstance ⟨i⟩ ty = true → ∀ c ∈ e.decl.superclasses, r.hasInstance c ty = true
  names_iff {i : Nat} {e : ClassEntry} : r.entries[i]? = some e →
    ∀ q ∈ e.instances, ∀ name, name ∈ q.2.names ↔ name ∈ e.decl.methods

theorem coherent_empty : Coherent .empty where
  id_eq h := nomatch h
  classByName?_iff := by simp [classByName?, empty]
  superclass_lt h := nomatch h
  superclass_instance h := nomatch h
  names_iff h := nomatch h

theorem Coherent.close (h : r.Coherent) : r.close.Coherent where
  id_eq := h.id_eq
  classByName?_iff := h.classByName?_iff
  superclass_lt := h.superclass_lt
  superclass_instance := h.superclass_instance
  names_iff := h.names_iff

theorem Coherent.extend (h : r.Coherent) (hd : r.Admits d) : (r.extend d).Coherent where
  id_eq he := by
    rcases getElem?_extend.mp he with he | ⟨rfl, rfl⟩
    · exact h.id_eq he
    · rfl
  classByName?_iff {name c} := by
    rw [classByName?_extend]
    by_cases hname : name = d.name
    · subst hname
      rw [if_pos rfl]
      constructor
      · intro hc
        cases hc
        exact ⟨_, getElem?_extend.mpr (.inr ⟨rfl, rfl⟩), rfl⟩
      · rintro ⟨e, he, hname⟩
        rcases getElem?_extend.mp he with he | ⟨hc, -⟩
        · -- no earlier class has the name
          have hold := h.classByName?_iff.mpr ⟨e, he, hname⟩
          rw [hd.isNew] at hold
          cases hold
        · cases c
          simp_all
    · rw [if_neg hname, h.classByName?_iff]
      constructor
      · rintro ⟨e, he, rfl⟩
        exact ⟨e, getElem?_extend.mpr (.inl he), rfl⟩
      · rintro ⟨e, he, rfl⟩
        rcases getElem?_extend.mp he with he | ⟨-, rfl⟩
        · exact ⟨e, he, rfl⟩
        · exact absurd rfl hname
  superclass_lt he c hc := by
    rcases getElem?_extend.mp he with he | ⟨rfl, rfl⟩
    · exact h.superclass_lt he c hc
    · exact hd.superclasses c hc
  superclass_instance he hinst c hc := by
    rw [hasInstance, instance?_extend] at hinst ⊢
    rcases getElem?_extend.mp he with he | ⟨rfl, rfl⟩
    · exact h.superclass_instance he hinst c hc
    · simp [instance?] at hinst
  names_iff he q hq := by
    rcases getElem?_extend.mp he with he | ⟨-, rfl⟩
    · exact h.names_iff he q hq
    · cases hq

theorem Coherent.insert (h : r.Coherent) {e : ClassEntry} (ha : r.Accepts c ty record e) :
    (r.insert c ty record).Coherent := by
  -- an entry is an old one, up to the new record
  have hentry : ∀ {i e'}, (r.insert c ty record).entries[i]? = some e' →
      ∃ e₀, r.entries[i]? = some e₀ ∧ e'.id = e₀.id ∧ e'.decl = e₀.decl
        ∧ ∀ q ∈ e'.instances, q ∈ e₀.instances ∨ (c.index = i ∧ q = (ty, record)) := by
    intro i e' he'
    rw [getElem?_insert] at he'
    obtain ⟨e₀, he₀, rfl⟩ := Option.map_eq_some_iff.mp he'
    refine ⟨e₀, he₀, ?_⟩
    by_cases hi : c.index = i
    · simp [hi, or_comm]
    · simp [hi]
  have hc : c.index < r.entries.length := (List.getElem?_eq_some_iff.mp ha.entry).1
  have hinst : ∀ c' ty', (r.insert c ty record).hasInstance c' ty' = true
      ↔ (c' = c ∧ ty' = ty) ∨ r.hasInstance c' ty' = true := by
    intro c' ty'
    rw [hasInstance, instance?_insert c' ty' hc, hasInstance]
    split <;> simp_all
  exact {
    id_eq := fun he => by
      obtain ⟨e₀, he₀, hid, -⟩ := hentry he
      rw [hid, h.id_eq he₀]
    classByName?_iff := fun {name c'} => by
      show r.classByName? name = some c' ↔ _
      rw [h.classByName?_iff, getElem?_insert]
      constructor
      · rintro ⟨e₀, he₀, hname⟩
        refine ⟨_, by rw [he₀]; rfl, ?_⟩
        split <;> exact hname
      · rintro ⟨e', he', hname⟩
        obtain ⟨e₀, he₀, rfl⟩ := Option.map_eq_some_iff.mp he'
        refine ⟨e₀, he₀, ?_⟩
        rw [← hname]
        split <;> rfl
    superclass_lt := fun he => by
      obtain ⟨e₀, he₀, -, hdecl, -⟩ := hentry he
      rw [hdecl]
      exact h.superclass_lt he₀
    superclass_instance := fun {i e' ty'} he hi s hs => by
      obtain ⟨e₀, he₀, -, hdecl, -⟩ := hentry he
      rw [hdecl] at hs
      rw [hinst] at hi ⊢
      rcases hi with ⟨hic, rfl⟩ | hi
      · -- the registration has asked for this instance
        have hidx : i = c.index := by rw [← hic]
        rw [hidx, ha.entry] at he₀
        cases he₀
        exact .inr (ha.superclasses s hs)
      · exact .inr (h.superclass_instance he₀ hi s hs)
    names_iff := fun he q hq name => by
      obtain ⟨e₀, he₀, -, hdecl, hinstances⟩ := hentry he
      rw [hdecl]
      rcases hinstances q hq with hq | ⟨rfl, rfl⟩
      · exact h.names_iff he₀ q hq name
      · rw [ha.entry] at he₀
        cases he₀
        exact ha.names name }

/-- `s` is a direct superclass of `c`. -/
def Superclass (r : Registry) (c s : ClassId) : Prop :=
  ∃ e, r.entries[c.index]? = some e ∧ s ∈ e.decl.superclasses

theorem Coherent.hasInstance_of_above (h : r.Coherent) {s : ClassId}
    (hs : Relation.TransGen r.Superclass c s) (hc : r.hasInstance c ty = true) :
    r.hasInstance s ty = true := by
  induction hs with
  | single hstep =>
      obtain ⟨e, he, hmem⟩ := hstep
      exact h.superclass_instance he hc _ hmem
  | tail _ hstep ih =>
      obtain ⟨e, he, hmem⟩ := hstep
      exact h.superclass_instance he ih _ hmem

end Registry

/-! ## Operations -/

/-- What can be done to a registry. -/
inductive RegistryOp where
  | declare (d : ClassDecl)
  | register (c : ClassId) (ty : TypeCon) (record : MethodRecord)
  | derive (c : ClassId) (ty : TypeCon)
  | close

/-- The state after a step, whether it succeeds or fails. -/
def Building.after (b : Building) (x : Build α) : Building :=
  match x b with
  | .ok _ b' => b'
  | .error _ b' => b'

namespace RegistryOp

def run (b : Building) : RegistryOp → Building
  | .declare d => b.after (Build.declare d)
  | .register c ty record => b.after (Build.register c ty record)
  | .derive c ty => b.after (Build.derive c ty)
  | .close => { b with registry := b.registry.close }

def runAll (b : Building) (ops : List RegistryOp) : Building := ops.foldl run b

end RegistryOp

theorem Build.check_eq (f : Registry → Except ClassError α) (b : Building) :
    Build.check f b = match f b.registry with
      | .ok a => .ok a b
      | .error e => .error e b := by
  show (match f b.registry with
    | .ok a => (pure a : Build α)
    | .error e => throw e) b = _
  cases f b.registry with
  | ok a => rfl
  | error e => rfl

theorem Building.after_check_bind (f : Registry → Except ClassError α) (g : α → Build β)
    (b : Building) :
    b.after (Build.check f >>= g) = match f b.registry with
      | .ok a => b.after (g a)
      | .error _ => b := by
  simp only [Building.after, bind, EStateM.bind, Build.check_eq]
  cases f b.registry with
  | ok a => rfl
  | error e => rfl

/-- What a registration comes to, with whatever record. -/
def Registry.Registers (r : Registry) (c : ClassId) (ty : TypeCon) (r' : Registry) : Prop :=
  r' = r ∨ ∃ record e, r.Accepts c ty record e ∧ r' = r.insert c ty record

theorem Build.registers_register (c : ClassId) (ty : TypeCon) (record : MethodRecord)
    (b : Building) :
    b.registry.Registers c ty (b.after (Build.register c ty record)).registry := by
  rw [Build.register, Building.after_check_bind]
  cases h : b.registry.accept c ty record with
  | error e => exact .inl rfl
  | ok d =>
      obtain ⟨e, he, -⟩ := Registry.accept_eq_ok_iff.mp h
      exact .inr ⟨record, e, he, rfl⟩

/-- A derivation is a registration of what the deriver answers. -/
theorem Build.registers_derive (c : ClassId) (ty : TypeCon) (b : Building) :
    b.registry.Registers c ty (b.after (Build.derive c ty)).registry := by
  have hrest : ∀ (d : Deriver) (b₁ : Building), b₁.registry.Registers c ty (b₁.after (do
      let record ← Build.check fun r => d.derive ty r.inquiry
      Build.register c ty record)).registry := by
    intro d b₁
    rw [Building.after_check_bind]
    cases d.derive ty b₁.registry.inquiry with
    | error e => exact .inl rfl
    | ok record => exact registers_register c ty record b₁
  rw [Build.derive, Building.after_check_bind]
  cases b.registry.deriver c ty with
  | error e => exact .inl rfl
  | ok d =>
      dsimp only
      cases d.label with
      | none => exact hrest d b
      | some label => exact hrest d { b with log := b.log.push (.derive label ty.name) }

namespace RegistryOp

/-- All that an operation can do. -/
theorem run_cases (op : RegistryOp) (b : Building) :
    (op.run b).registry = b.registry
      ∨ (op.run b).registry = b.registry.close
      ∨ (∃ d, b.registry.Admits d ∧ (op.run b).registry = b.registry.extend d)
      ∨ ∃ c ty record e, b.registry.Accepts c ty record e
          ∧ (op.run b).registry = b.registry.insert c ty record := by
  cases op with
  | close => exact .inr (.inl rfl)
  | declare d =>
      rw [run, Build.declare, Building.after_check_bind]
      cases h : b.registry.declare d with
      | error e => exact .inl rfl
      | ok q =>
          obtain ⟨hd, -, hr⟩ := Registry.declare_eq_ok_iff.mp h
          exact .inr (.inr (.inl ⟨d, hd, hr⟩))
  | register c ty record =>
      rcases Build.registers_register c ty record b with h | ⟨record, e, he, h⟩
      · exact .inl h
      · exact .inr (.inr (.inr ⟨c, ty, record, e, he, h⟩))
  | derive c ty =>
      rcases Build.registers_derive c ty b with h | ⟨record, e, he, h⟩
      · exact .inl h
      · exact .inr (.inr (.inr ⟨c, ty, record, e, he, h⟩))

theorem coherent_run (op : RegistryOp) {b : Building} (h : b.registry.Coherent) :
    (op.run b).registry.Coherent := by
  rcases op.run_cases b with heq | heq | ⟨d, hd, heq⟩ | ⟨c, ty, record, e, he, heq⟩
  · rw [heq]
    exact h
  · rw [heq]
    exact h.close
  · rw [heq]
    exact h.extend hd
  · rw [heq]
    exact h.insert he

/-- A record that is there stays. -/
theorem instance?_run (op : RegistryOp) {b : Building} {c : ClassId} {ty : TypeCon}
    {record : MethodRecord} (h : b.registry.instance? c ty = some record) :
    (op.run b).registry.instance? c ty = some record := by
  rcases op.run_cases b with heq | heq | ⟨d, -, heq⟩ | ⟨c', ty', record', e, he, heq⟩
  · rwa [heq]
  · rw [heq]
    exact h
  · rwa [heq, Registry.instance?_extend]
  · have hc : c'.index < b.registry.entries.length := (List.getElem?_eq_some_iff.mp he.entry).1
    rw [heq, Registry.instance?_insert c ty hc, if_neg]
    · exact h
    · -- a second record for the same type is refused
      rintro ⟨rfl, rfl⟩
      rw [Registry.instance?, he.entry, Option.bind_some, he.isNew] at h
      cases h

theorem run_of_closed (op : RegistryOp) {b : Building} (h : b.registry.isClosed = true) :
    (op.run b).registry = b.registry := by
  rcases op.run_cases b with heq | heq | ⟨d, hd, -⟩ | ⟨c, ty, record, e, he, -⟩
  · exact heq
  · rw [heq, Registry.close, ← h]
  · cases h.symm.trans hd.isOpen
  · cases h.symm.trans he.isOpen

/-! ## Runs -/

theorem coherent_runAll (ops : List RegistryOp) {b : Building} (h : b.registry.Coherent) :
    (runAll b ops).registry.Coherent := by
  induction ops generalizing b with
  | nil => exact h
  | cons op ops ih => exact ih (op.coherent_run h)

theorem instance?_runAll (ops : List RegistryOp) {b : Building} {c : ClassId} {ty : TypeCon}
    {record : MethodRecord} (h : b.registry.instance? c ty = some record) :
    (runAll b ops).registry.instance? c ty = some record := by
  induction ops generalizing b with
  | nil => exact h
  | cons op ops ih => exact ih (op.instance?_run h)

theorem runAll_of_closed (ops : List RegistryOp) {b : Building} (h : b.registry.isClosed = true) :
    (runAll b ops).registry = b.registry := by
  induction ops generalizing b with
  | nil => rfl
  | cons op ops ih =>
      have hop := op.run_of_closed h
      exact (ih (by rwa [hop])).trans hop

end RegistryOp

/-- In every registry that is built from nothing the tables fit together: ids are positions, names
and ids correspond one to one, superclasses come first, a type with an instance has instances of all
superclasses above, and records have the methods of their class. A record that has been found is
found from then on, and nothing changes once the registry is closed. -/
theorem registry_coherent (trace : Trace) (log : Array Invocation) (ops : List RegistryOp) :
    let b := RegistryOp.runAll { trace, log } ops
    b.registry.Coherent
      ∧ (∀ name name' c, b.registry.classByName? name = some c →
          b.registry.classByName? name' = some c → name = name')
      ∧ (∀ c s ty, Relation.TransGen b.registry.Superclass c s →
          b.registry.hasInstance c ty = true → b.registry.hasInstance s ty = true)
      ∧ (∀ later c ty record, b.registry.lookup c ty = .ok record →
          (RegistryOp.runAll b later).registry.lookup c ty = .ok record)
      ∧ ∀ later,
          (RegistryOp.runAll (RegistryOp.close.run b) later).registry = b.registry.close := by
  intro b
  have hb : b.registry.Coherent := RegistryOp.coherent_runAll ops Registry.coherent_empty
  refine ⟨hb, ?_, ?_, ?_, ?_⟩
  · intro name name' c hname hname'
    obtain ⟨e, he, rfl⟩ := hb.classByName?_iff.mp hname
    obtain ⟨e', he', rfl⟩ := hb.classByName?_iff.mp hname'
    rw [Option.some.inj (he.symm.trans he')]
  · intro c s ty hs
    exact hb.hasInstance_of_above hs
  · intro later c ty record h
    rw [Registry.lookup_eq_ok_iff] at h ⊢
    exact RegistryOp.instance?_runAll later h
  · intro later
    exact RegistryOp.runAll_of_closed later rfl

/-- A registration with a class of no registry and one that comes too early fail in between. -/
theorem registry_coherent_tower :
    let b := RegistryOp.runAll {}
      [.declare { name := "Functor", methods := ["fmap"] },
        .declare { name := "Applicative", superclasses := [⟨0⟩] },
        .declare { name := "Monad", superclasses := [⟨1⟩] },
        .register ⟨7⟩ .list .empty,
        .register ⟨2⟩ .list .empty,
        .register ⟨0⟩ .list (.ofList [("fmap", .unit)]),
        .register ⟨1⟩ .list .empty,
        .register ⟨2⟩ .list .empty]
    Relation.TransGen b.registry.Superclass ⟨2⟩ ⟨0⟩ ∧ b.registry.hasInstance ⟨2⟩ .list = true
      ∧ b.registry.hasInstance ⟨0⟩ .list = true := by
  intro b
  have habove : Relation.TransGen b.registry.Superclass ⟨2⟩ ⟨0⟩ :=
    .tail (.single ⟨_, rfl, List.mem_singleton.mpr rfl⟩) ⟨_, rfl, List.mem_singleton.mpr rfl⟩
  have hmonad : b.registry.hasInstance ⟨2⟩ .list = true := by decide
  exact ⟨habove, hmonad, (registry_coherent {} #[] _).2.2.1 _ _ _ habove hmonad⟩

end Overload
