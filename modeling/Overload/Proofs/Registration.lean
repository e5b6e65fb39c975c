import Overload.Proofs.Outcome
import Overload.Proofs.RegistrationOrder

/-!
# What a registration is refused for

A registration is taken or refused as a whole. `Registry.Accepts` lists what is asked of one, and
`Registry.Refuses` the errors, each with the reason for it and with the fact that no reason before
it applies: of several faults the first one in the order of the checks is reported, and of several
missing superclasses, missing methods or extra methods again the first. The two exhaust the
outcomes (`accept_eq_ok_iff`, `accept_eq_error_iff`).

That a missing superclass can be reported by its name rests on the tables as a whole: the
superclasses of a class have been declared before it (`Coherent.superclass_lt`). That the extra
method is the least one rests on the order of the names in a record
(`MethodRecord.pairwise_names`).

A derivation has reasons of its own to fail, which come first even in a closed registry
(`Registry.Underivable`); past these it is the registration of the derived record.
-/

namespace Overload

/-! ## Names of methods -/

theorem MethodRecord.isNone_get?_iff {record : MethodRecord} {m : String} :
    (record.get? m).isNone = true ↔ m ∉ record.names := by
  rw [← isSome_get?_iff, Option.isNone_iff_eq_none, Option.not_isSome_iff_eq_none]

theorem ClassDecl.not_hasMethod_iff {d : ClassDecl} {m : String} :
    (!d.hasMethod m) = true ↔ m ∉ d.methods := by
  simp [hasMethod]

/-! ## The first of its kind -/

/-- `a` is the first element of the list with the property. -/
def FirstWith (P : α → Prop) (xs : List α) (a : α) : Prop :=
  ∃ before after, xs = before ++ a :: after ∧ P a ∧ ∀ b ∈ before, ¬ P b

theorem firstWith_iff {P : α → Prop} {p : α → Bool} (hp : ∀ a, p a = true ↔ P a) {xs : List α}
    {a : α} : FirstWith P xs a ↔ xs.find? p = some a := by
  simp only [FirstWith, List.find?_eq_some_iff_append, ← hp, Bool.not_eq_true', Bool.not_eq_true]
  constructor
  · rintro ⟨before, after, heq, ha, hb⟩
    exact ⟨ha, before, after, heq, hb⟩
  · rintro ⟨ha, before, after, heq, hb⟩
    exact ⟨before, after, heq, ha, hb⟩

theorem FirstWith.mem {P : α → Prop} {xs : List α} {a : α} (h : FirstWith P xs a) : a ∈ xs := by
  obtain ⟨before, after, rfl, -⟩ := h
  exact List.mem_append_right before List.mem_cons_self

theorem FirstWith.holds {P : α → Prop} {xs : List α} {a : α} (h : FirstWith P xs a) : P a := by
  obtain ⟨-, -, -, ha, -⟩ := h
  exact ha

/-- In an increasing list the first element with a property is the least one. -/
theorem FirstWith.le {P : String → Prop} {xs : List String} {a : String} (h : FirstWith P xs a)
    (hxs : xs.Pairwise (· < ·)) {b : String} (hb : b ∈ xs) (hP : P b) : a ≤ b := by
  obtain ⟨before, after, rfl, -, hbefore⟩ := h
  rcases List.mem_append.mp hb with hb | hb
  · exact absurd hP (hbefore b hb)
  · rcases List.mem_cons.mp hb with rfl | hb
    · exact String.le_refl b
    · have hlt := (List.pairwise_cons.mp (List.pairwise_append.mp hxs).2.1).1 b hb
      exact String.not_lt.mp (String.lt_asymm hlt)

namespace Registry

variable {r : Registry} {c : ClassId} {ty : TypeCon} {record : MethodRecord} {err : ClassError}

/-! ## Reasons to refuse a record -/

/-- The error for a record that is not accepted. The reasons come in the order in which they are
looked for, each with what the checks before it have found. -/
inductive Refuses (r : Registry) (c : ClassId) (ty : TypeCon) (record : MethodRecord) :
    ClassError → Prop
  | closed : r.isClosed = true → Refuses r c ty record .closed
  | unknownClass : r.isClosed = false → r.entries[c.index]? = none →
      Refuses r c ty record (.unknownClass c.index)
  /-- The first direct superclass without an instance for the type. -/
  | missingDependency {e : ClassEntry} {s : ClassId} {d : ClassDecl} : r.isClosed = false →
      r.entries[c.index]? = some e →
      FirstWith (r.hasInstance · ty = false) e.decl.superclasses s → r.decl s = .ok d →
      Refuses r c ty record (.missingDependency e.decl.name d.name ty.name)
  | duplicateInstance {e : ClassEntry} : r.isClosed = false → r.entries[c.index]? = some e →
      (∀ s ∈ e.decl.superclasses, r.hasInstance s ty = true) → r.hasInstance c ty = true →
      Refuses r c ty record (.duplicateInstance e.decl.name ty.name)
  /-- The first method of the class that the record lacks. -/
  | incompleteInstance {e : ClassEntry} {m : String} : r.isClosed = false →
      r.entries[c.index]? = some e → (∀ s ∈ e.decl.superclasses, r.hasInstance s ty = true) →
      r.hasInstance c ty = false → FirstWith (· ∉ record.names) e.decl.methods m →
      Refuses r c ty record (.incompleteInstance e.decl.name ty.name m)
  /-- The least name of the record that is no method of the class. -/
  | unknownMethod {e : ClassEntry} {m : String} : r.isClosed = false →
      r.entries[c.index]? = some e → (∀ s ∈ e.decl.superclasses, r.hasInstance s ty = true) →
      r.hasInstance c ty = false → (∀ m' ∈ e.decl.methods, m' ∈ record.names) →
      m ∈ record.names → m ∉ e.decl.methods →
      (∀ m' ∈ record.names, m' ∉ e.decl.methods → m ≤ m') →
      Refuses r c ty record (.unknownMethod e.decl.name m)

theorem hasInstance_of_entry {e : ClassEntry} (he : r.entries[c.index]? = some e) :
    r.hasInstance c ty = (e.instances.lookup ty).isSome := by
  rw [hasInstance, instance?, he, Option.bind_some]

theorem decl_of_entry {e : ClassEntry} (he : r.entries[c.index]? = some e) :
    r.decl c = .ok e.decl := by
  rw [decl, entry_eq_ok_iff.mpr he]
  rfl

/-- Each reason makes the checks end with its error. -/
theorem accept_of_refuses (h : r.Refuses c ty record err) :
    r.accept c ty record = .error err := by
  have hsupplied : ∀ {xs : List ClassId}, (∀ s ∈ xs, r.hasInstance s ty = true) →
      xs.find? (fun s => !r.hasInstance s ty) = none := by
    intro xs hxs
    simpa [List.find?_eq_none] using hxs
  cases h with
  | closed hclosed => simp [accept, ensureOpen, hclosed, bind, Except.bind]
  | unknownClass hopen hnone => simp [accept, ensureOpen, entry, hopen, hnone, bind, Except.bind]
  | missingDependency hopen he hfirst hd =>
      have hfirst := (firstWith_iff (p := fun s => !r.hasInstance s ty) (by simp)).mp hfirst
      simp [accept, ensureOpen, entry, hopen, he, hfirst, hd, bind, Except.bind]
  | duplicateInstance hopen he hsup hdup =>
      rw [hasInstance_of_entry he] at hdup
      simp [accept, ensureOpen, entry, hopen, he, hsupplied hsup, hdup, bind, Except.bind]
  | incompleteInstance hopen he hsup hnew hfirst =>
      rw [hasInstance_of_entry he] at hnew
      have hfirst := (firstWith_iff fun m => MethodRecord.isNone_get?_iff).mp hfirst
      simp [accept, ensureOpen, entry, hopen, he, hsupplied hsup, hnew, hfirst, bind, Except.bind]
  | @unknownMethod e m hopen he hsup hnew hall hm hextra hleast =>
      rw [hasInstance_of_entry he] at hnew
      have hmissing : e.decl.methods.find? (fun m => (record.get? m).isNone) = none := by
        rw [List.find?_eq_none]
        exact fun m' hm' hnone => MethodRecord.isNone_get?_iff.mp hnone (hall m' hm')
      have hfirst : record.names.find? (fun m => !e.decl.hasMethod m) = some m := by
        cases hfind : record.names.find? fun m => !e.decl.hasMethod m with
        | none =>
            have hnone := List.find?_eq_none.mp hfind m hm
            exact absurd (ClassDecl.not_hasMethod_iff.mpr hextra) hnone
        | some m' =>
            -- the first extra name is below the least one
            have hfirst := (firstWith_iff fun _ => ClassDecl.not_hasMethod_iff).mpr hfind
            rw [String.le_antisymm (hfirst.le record.pairwise_names hm hextra)
              (hleast m' hfirst.mem hfirst.holds)]
      simp [accept, ensureOpen, entry, hopen, he, hsupplied hsup, hnew, hmissing, hfirst, bind,
        Except.bind]

theorem Coherent.exists_decl (hr : r.Coherent) {e : ClassEntry} {s : ClassId}
    (he : r.entries[c.index]? = some e) (hs : s ∈ e.decl.superclasses) : ∃ d, r.decl s = .ok d := by
  have hlt := Nat.lt_trans (hr.superclass_lt he s hs) (List.getElem?_eq_some_iff.mp he).1
  exact ⟨_, decl_of_entry (List.getElem?_eq_getElem hlt)⟩

/-- A record is accepted, or there is a reason to refuse it. -/
theorem Coherent.accepts_or_refuses (hr : r.Coherent) (c : ClassId) (ty : TypeCon)
    (record : MethodRecord) :
    (∃ e, r.Accepts c ty record e) ∨ ∃ err, r.Refuses c ty record err := by
  rcases hopen : r.isClosed with _ | _
  case true => exact .inr ⟨_, .closed hopen⟩
  rcases he : r.entries[c.index]? with _ | e
  · exact .inr ⟨_, .unknownClass hopen he⟩
  rcases hsup : e.decl.superclasses.find? (fun s => !r.hasInstance s ty) with _ | s
  case some =>
    obtain ⟨d, hd⟩ := hr.exists_decl he (List.mem_of_find?_eq_some hsup)
    exact .inr ⟨_, .missingDependency hopen he ((firstWith_iff (by simp)).mpr hsup) hd⟩
  have hsup : ∀ s ∈ e.decl.superclasses, r.hasInstance s ty = true := by
    simpa [List.find?_eq_none] using hsup
  rcases hnew : r.hasInstance c ty with _ | _
  case true => exact .inr ⟨_, .duplicateInstance hopen he hsup hnew⟩
  rcases hmissing : e.decl.methods.find? (fun m => (record.get? m).isNone) with _ | m
  case some =>
    have hfirst := (firstWith_iff fun m => MethodRecord.isNone_get?_iff).mpr hmissing
    exact .inr ⟨_, .incompleteInstance hopen he hsup hnew hfirst⟩
  have hall : ∀ m ∈ e.decl.methods, m ∈ record.names := by
    simpa [List.find?_eq_none, MethodRecord.isNone_get?_iff, -Option.isNone_iff_eq_none]
      using hmissing
  rcases hextra : record.names.find? (fun m => !e.decl.hasMethod m) with _ | m
  case some =>
    have hfirst := (firstWith_iff fun _ => ClassDecl.not_hasMethod_iff).mpr hextra
    exact .inr ⟨_, .unknownMethod hopen he hsup hnew hall hfirst.mem hfirst.holds
      fun m' hm' hextra' => hfirst.le record.pairwise_names hm' hextra'⟩
  have hnames : ∀ m ∈ record.names, m ∈ e.decl.methods := by
    simpa [List.find?_eq_none, ClassDecl.hasMethod] using hextra
  rw [hasInstance_of_entry he, Option.isSome_eq_false_iff, Option.isNone_iff_eq_none] at hnew
  exact .inl ⟨e, hopen, he, hsup, hnew, fun m => ⟨hnames m, hall m⟩⟩

theorem Coherent.accept_eq_error_iff (hr : r.Coherent) :
    r.accept c ty record = .error err ↔ r.Refuses c ty record err := by
  constructor
  · intro herr
    rcases hr.accepts_or_refuses c ty record with ⟨e, he⟩ | ⟨err', herr'⟩
    · cases herr.symm.trans (accept_eq_ok_iff.mpr ⟨e, he, rfl⟩)
    · cases herr.symm.trans (accept_of_refuses herr')
      exact herr'
  · exact accept_of_refuses

/-- `r'` is `r` up to the record of one class for one type, which was not there. -/
structure DiffersAt (r : Registry) (c : ClassId) (ty : TypeCon) (record : MethodRecord)
    (r' : Registry) : Prop where
  isClosed_eq : r'.isClosed = r.isClosed
  classes_eq : r'.classes = r.classes
  ids_eq : r'.ids = r.ids
  instance?_eq : ∀ c' ty', r'.instance? c' ty'
    = if c' = c ∧ ty' = ty then some record else r.instance? c' ty'
  instanceCount_eq : ∀ c', r'.instanceCount c' = r.instanceCount c' + if c' = c then 1 else 0

theorem Accepts.differsAt {e : ClassEntry} (h : r.Accepts c ty record e) :
    r.DiffersAt c ty record (r.insert c ty record) where
  isClosed_eq := rfl
  classes_eq := classes_insert
  ids_eq := rfl
  instance?_eq c' ty' := Registry.instance?_insert c' ty' (List.getElem?_eq_some_iff.mp h.entry).1
  instanceCount_eq c' := by
    have hcc : c.index = c'.index ↔ c' = c := by
      cases c; cases c'
      simp [eq_comm]
    rw [instanceCount, instanceCount, getElem?_insert]
    by_cases hc : c' = c
    · subst hc
      simp [h.entry]
    · cases r.entries[c'.index]? with
      | none => simp [hc]
      | some e' => simp [hc, hcc]

/-! ## Reasons not to derive one -/

/-- The error where there is no derived record to register, closed or not. -/
inductive Underivable (r : Registry) (c : ClassId) (ty : TypeCon) : ClassError → Prop
  | unknownClass : r.entries[c.index]? = none → Underivable r c ty (.unknownClass c.index)
  | notDerivable {e : ClassEntry} : r.entries[c.index]? = some e → e.decl.deriver = none →
      Underivable r c ty (.notDerivable e.decl.name ty.name)
  | fails {e : ClassEntry} {d : Deriver} {err : ClassError} : r.entries[c.index]? = some e →
      e.decl.deriver = some d → d.derive ty r.inquiry = .error err → Underivable r c ty err

theorem deriver_of_entry {e : ClassEntry} {d : Deriver} (he : r.entries[c.index]? = some e)
    (hd : e.decl.deriver = some d) : r.deriver c ty = .ok d := by
  simp [deriver, decl_of_entry he, hd, bind, Except.bind]

end Registry

/-! ## The steps -/

namespace Build

variable {c : ClassId} {ty : TypeCon} {record : MethodRecord} {b b' : Building}
  {err : ClassError}

theorem register_eq_error_iff :
    Build.register c ty record b = .error err b'
      ↔ b.registry.accept c ty record = .error err ∧ b' = b := by
  simp only [Build.register, bind, EStateM.bind, Build.check_eq]
  cases b.registry.accept c ty record with
  | ok d =>
      constructor
      · intro h
        cases h
      · rintro ⟨h, -⟩
        cases h
  | error err' => simp [eq_comm]

/-- Once the deriver is found, all that is left to do is up to what it answers. -/
theorem derive_of_deriver {d : Deriver} (hd : b.registry.deriver c ty = .ok d) :
    ∃ log, Build.derive c ty b = (do
      let record ← Build.check fun r => d.derive ty r.inquiry
      Build.register c ty record) { b with log } := by
  have hcheck : Build.check (·.deriver c ty) b = .ok d b := by rw [Build.check_eq, hd]
  rw [Build.derive, bind_of_ok hcheck]
  cases d.label with
  | none => exact ⟨b.log, rfl⟩
  | some label => exact ⟨b.log.push (.derive label ty.name), rfl⟩

theorem derive_of_underivable (h : b.registry.Underivable c ty err) :
    ∃ log, Build.derive c ty b = .error err { b with log } := by
  cases h with
  | unknownClass hnone =>
      have hd : b.registry.deriver c ty = .error (.unknownClass c.index) := by
        simp [Registry.deriver, Registry.decl, Registry.entry, hnone, bind, Except.bind]
      refine ⟨b.log, bind_of_error ?_⟩
      rw [Build.check_eq, hd]
  | @notDerivable e he hnone =>
      have hd : b.registry.deriver c ty = .error (.notDerivable e.decl.name ty.name) := by
        simp [Registry.deriver, Registry.decl_of_entry he, hnone, bind, Except.bind]
      refine ⟨b.log, bind_of_error ?_⟩
      rw [Build.check_eq, hd]
  | fails he hd herr =>
      obtain ⟨log, hrun⟩ := derive_of_deriver (Registry.deriver_of_entry he hd)
      refine ⟨log, hrun.trans (bind_of_error ?_)⟩
      rw [Build.check_eq, herr]

theorem derive_of_derived {e : ClassEntry} {d : Deriver}
    (he : b.registry.entries[c.index]? = some e) (hd : e.decl.deriver = some d)
    (hrecord : d.derive ty b.registry.inquiry = .ok record) :
    ∃ log, Build.derive c ty b = Build.register c ty record { b with log } := by
  obtain ⟨log, hrun⟩ := derive_of_deriver (Registry.deriver_of_entry he hd)
  refine ⟨log, hrun.trans (bind_of_ok ?_)⟩
  rw [Build.check_eq, hrecord]

theorem eq_of_declare_eq_error {d : ClassDecl} (h : Build.declare d b = .error err b') :
    b' = b := by
  simp only [Build.declare, bind, EStateM.bind, Build.check_eq] at h
  cases hd : b.registry.declare d with
  | ok q =>
      rw [hd] at h
      cases h
  | error err' =>
      rw [hd] at h
      cases h
      rfl

end Build

/-- A registration succeeds if and only if all that is asked of it is met, and then changes one
place. It fails with the first reason that applies, and then changes nothing. A derivation fails
for reasons of its own or is the registration of the derived record, and a declaration that fails
changes nothing. -/
theorem registration_all_or_nothing (trace : Trace) (log : Array Invocation)
    (ops : List RegistryOp) (b : Building)
    (hb : b.registry = (RegistryOp.runAll { trace, log } ops).registry) (c : ClassId)
    (ty : TypeCon) (record : MethodRecord) :
    ((∃ b', Build.register c ty record b = .ok () b') ↔ ∃ e, b.registry.Accepts c ty record e)
      ∧ (∀ b', Build.register c ty record b = .ok () b' →
          b.registry.DiffersAt c ty record b'.registry)
      ∧ (∀ err b', Build.register c ty record b = .error err b'
          ↔ b.registry.Refuses c ty record err ∧ b' = b)
      ∧ (∀ err, b.registry.Underivable c ty err →
          ∃ log, Build.derive c ty b = .error err { b with log })
      ∧ (∀ e d derived, b.registry.entries[c.index]? = some e → e.decl.deriver = some d →
          d.derive ty b.registry.inquiry = .ok derived →
          ∃ log, Build.derive c ty b = Build.register c ty derived { b with log })
      ∧ ∀ d err b', Build.declare d b = .error err b' → b' = b := by
  have hr : b.registry.Coherent := by
    rw [hb]
    exact RegistryOp.coherent_runAll ops Registry.coherent_empty
  have hrun : (⟨c, ty, record⟩ : Registration).run = Build.register c ty record := rfl
  refine ⟨⟨?_, ?_⟩, ?_, ?_, ?_, ?_, ?_⟩
  · rintro ⟨b', h⟩
    obtain ⟨e, he, -⟩ := Registration.accepts_of_run (q := ⟨c, ty, record⟩) h
    exact ⟨e, he⟩
  · rintro ⟨e, he⟩
    obtain ⟨b', h, -⟩ := Registration.run_of_accepts (q := ⟨c, ty, record⟩) he
    exact ⟨b', h⟩
  · intro b' h
    obtain ⟨e, he, hb'⟩ := Registration.accepts_of_run (q := ⟨c, ty, record⟩) h
    rw [hb']
    exact he.differsAt
  · intro err b'
    rw [Build.register_eq_error_iff, hr.accept_eq_error_iff]
  · exact fun err => Build.derive_of_underivable
  · exact fun e d derived => Build.derive_of_derived
  · exact fun d err b' => Build.eq_of_declare_eq_error

/-- Two names are extra: the one that sorts first is reported, and only since `Functor` has its
list instance. -/
theorem registration_all_or_nothing_extra :
    let b := RegistryOp.runAll {}
      [.declare { name := "Functor", methods := ["fmap"] },
        .declare { name := "Applicative", superclasses := [⟨0⟩], methods := ["pure"] },
        .register ⟨0⟩ .list (.ofList [("fmap", .unit)])]
    let record : MethodRecord := .ofList [("zip", .unit), ("pure", .unit), ("ap", .unit)]
    record.names = ["ap", "pure", "zip"]
      ∧ Build.register ⟨1⟩ .list record b = .error (.unknownMethod "Applicative" "ap") b
      ∧ Build.register ⟨1⟩ .tuple record b
        = .error (.missingDependency "Applicative" "Functor" TypeCon.tuple.name) b := by
  intro b record
  have hfails := fun ty => (registration_all_or_nothing {} #[] _ b rfl ⟨1⟩ ty record).2.2.1
  let functor : ClassDecl := { name := "Functor", methods := ["fmap"] }
  let applicative : ClassEntry :=
    { id := ⟨1⟩, decl := { name := "Applicative", superclasses := [⟨0⟩], methods := ["pure"] } }
  have he : b.registry.entries[1]? = some applicative := rfl
  refine ⟨by decide, (hfails .list _ b).mpr ⟨?_, rfl⟩, (hfails .tuple _ b).mpr ⟨?_, rfl⟩⟩
  · exact Registry.Refuses.unknownMethod (e := applicative) (m := "ap") rfl he (by decide) rfl
      (by decide) (by decide) (by decide) (by decide)
  · exact Registry.Refuses.missingDependency (e := applicative) (s := ⟨0⟩) (d := functor) rfl he
      ⟨[], [], rfl, rfl, by simp⟩ rfl

end Overload
