import Overload.Proofs.ClassTables

/-!
# The order of registrations

A list of requests to register instances is taken one by one, and what is asked of a request depends
on the ones before it. `Registry.Permits` says what the order has no part in: the classes are known
and the records fit them, the places are free and no two requests want the same one, and each
superclass instance that a request needs is there or is supplied by some request of the list. A
list that is taken is permitted (`Takes.permits`), and a permitted list is taken in every order in
which no request comes before one that supplies it (`Permits.takes`). What is found at the end
depends only on which requests were in the list (`Takes.instance?_eq_some_iff`).
-/

namespace Overload

/-- A request to make a type an instance of a class. -/
structure Registration where
  cls : ClassId
  ty : TypeCon
  record : MethodRecord

namespace Registration

/-- The place in the tables of instances that a request fills. -/
def place (q : Registration) : ClassId × TypeCon := (q.cls, q.ty)

def run (q : Registration) : Build Unit := Build.register q.cls q.ty q.record

/-- The requests one after another, up to the first that fails. -/
def runAll (qs : List Registration) : Build Unit := qs.forM run

/-- `q` supplies an instance that `q'` needs: its class is a direct superclass of the class of
`q'`, for the same type. -/
def Supplies (r : Registry) (q q' : Registration) : Prop :=
  q.ty = q'.ty ∧ r.Superclass q'.cls q.cls

end Registration

namespace Registry

variable {r r' : Registry} {c s : ClassId} {ty : TypeCon} {record : MethodRecord}
  {q : Registration} {qs qs' : List Registration}

/-! ## Classes and instances apart -/

/-- The classes of a registry without their instances. -/
def classes (r : Registry) : List (ClassId × ClassDecl) := r.entries.map fun e => (e.id, e.decl)

theorem classes_insert : (r.insert c ty record).classes = r.classes := by
  apply List.ext_getElem?
  intro i
  rw [classes, classes, List.getElem?_map, List.getElem?_map, getElem?_insert]
  cases r.entries[i]? with
  | none => rfl
  | some e =>
      by_cases hi : c.index = i
      · simp [hi]
      · simp [hi]

theorem getElem?_classes {i : Nat} {k : ClassId × ClassDecl} :
    r.classes[i]? = some k ↔ ∃ e, r.entries[i]? = some e ∧ (e.id, e.decl) = k := by
  rw [classes, List.getElem?_map, Option.map_eq_some_iff]

theorem superclass_iff :
    r.Superclass c s ↔ ∃ k, r.classes[c.index]? = some k ∧ s ∈ k.2.superclasses := by
  simp only [getElem?_classes]
  constructor
  · rintro ⟨e, he, hs⟩
    exact ⟨_, ⟨e, he, rfl⟩, hs⟩
  · rintro ⟨_, ⟨e, he, rfl⟩, hs⟩
    exact ⟨e, he, hs⟩

theorem superclass_insert : (r.insert c ty record).Superclass = r.Superclass := by
  funext c' s
  rw [eq_iff_iff, superclass_iff, superclass_iff, classes_insert]

theorem lookup_eq (c : ClassId) (ty : TypeCon) :
    r.lookup c ty = match r.classes[c.index]?, r.instance? c ty with
      | none, _ => .error (.unknownClass c.index)
      | some _, some record => .ok record
      | some k, none => .error (.missingInstance k.2.name ty.name) := by
  rw [lookup, entry, classes, List.getElem?_map, instance?]
  cases r.entries[c.index]? with
  | none => rfl
  | some e =>
      simp only [Option.map_some, Option.bind_some, bind, Except.bind]
      cases e.instances.lookup ty with
      | none => rfl
      | some record => rfl

theorem exists_accepts_iff : (∃ e, r.Accepts c ty record e) ↔
    r.isClosed = false
      ∧ (∃ k, r.classes[c.index]? = some k ∧ ∀ name, name ∈ record.names ↔ name ∈ k.2.methods)
      ∧ r.instance? c ty = none ∧ ∀ s, r.Superclass c s → r.hasInstance s ty = true := by
  constructor
  · rintro ⟨e, h⟩
    refine ⟨h.isOpen, ⟨_, getElem?_classes.mpr ⟨e, h.entry, rfl⟩, h.names⟩, ?_, ?_⟩
    · rw [instance?, h.entry, Option.bind_some, h.isNew]
    · rintro s ⟨e', he', hs⟩
      cases h.entry.symm.trans he'
      exact h.superclasses s hs
  · rintro ⟨hopen, ⟨k, hk, hnames⟩, hnew, hsup⟩
    obtain ⟨e, he, rfl⟩ := getElem?_classes.mp hk
    rw [instance?, he, Option.bind_some] at hnew
    exact ⟨e, hopen, he, fun s hs => hsup s ⟨e, he, hs⟩, hnew, hnames⟩

/-! ## Lists of requests -/

/-- Every request of the list is accepted in its turn, and the registry ends as the last one. -/
inductive Takes : Registry → List Registration → Registry → Prop
  | nil (r : Registry) : Takes r [] r
  | cons {r r' : Registry} {q : Registration} {qs : List Registration} {e : ClassEntry} :
      r.Accepts q.cls q.ty q.record e → Takes (r.insert q.cls q.ty q.record) qs r' →
      Takes r (q :: qs) r'

/-- What a list of requests needs, in whatever order it is taken. -/
structure Permits (r : Registry) (qs : List Registration) : Prop where
  isOpen : r.isClosed = false
  known : ∀ q ∈ qs, ∃ k, r.classes[q.cls.index]? = some k
    ∧ ∀ name, name ∈ q.record.names ↔ name ∈ k.2.methods
  isFree : ∀ q ∈ qs, r.instance? q.cls q.ty = none
  nodup : (qs.map Registration.place).Nodup
  supplied : ∀ q ∈ qs, ∀ s, r.Superclass q.cls s →
    r.hasInstance s q.ty = true ∨ (s, q.ty) ∈ qs.map Registration.place

theorem Accepts.instance?_insert {e : ClassEntry} (h : r.Accepts q.cls q.ty q.record e)
    (c : ClassId) (ty : TypeCon) : (r.insert q.cls q.ty q.record).instance? c ty
      = if (c, ty) = q.place then some q.record else r.instance? c ty := by
  rw [Registry.instance?_insert c ty (List.getElem?_eq_some_iff.mp h.entry).1]
  simp only [Registration.place, Prod.mk.injEq]

theorem Accepts.hasInstance_insert {e : ClassEntry} (h : r.Accepts q.cls q.ty q.record e)
    (c : ClassId) (ty : TypeCon) : (r.insert q.cls q.ty q.record).hasInstance c ty = true
      ↔ (c, ty) = q.place ∨ r.hasInstance c ty = true := by
  rw [hasInstance, h.instance?_insert, hasInstance]
  by_cases hp : (c, ty) = q.place
  · simp [hp]
  · simp [hp]

theorem Takes.classes_eq (h : r.Takes qs r') : r'.classes = r.classes ∧ r'.ids = r.ids := by
  induction h with
  | nil r => exact ⟨rfl, rfl⟩
  | cons _ _ ih => rwa [classes_insert] at ih

/-- What is found at the end was there before or is the record of a request. -/
theorem Takes.instance?_eq_some_iff (h : r.Takes qs r') :
    r'.instance? c ty = some record ↔ r.instance? c ty = some record ∨ ⟨c, ty, record⟩ ∈ qs := by
  induction h with
  | nil r => simp
  | @cons r r' q qs e hq _ ih =>
      have hfree : r.instance? q.cls q.ty = none := (exists_accepts_iff.mp ⟨e, hq⟩).2.2.1
      rw [ih, hq.instance?_insert, List.mem_cons]
      by_cases hp : (c, ty) = q.place
      · obtain ⟨rfl, rfl⟩ : c = q.cls ∧ ty = q.ty := Prod.mk.inj hp
        have hrecord : (⟨q.cls, q.ty, record⟩ : Registration) = q ↔ q.record = record := by
          cases q
          simp [eq_comm]
        simp [hp, hfree, hrecord]
      · have hne : (⟨c, ty, record⟩ : Registration) ≠ q := by
          rintro rfl
          exact hp rfl
        simp [hp, hne]

theorem Takes.permits (h : r.Takes qs r') (hopen : r.isClosed = false) : r.Permits qs := by
  induction h with
  | nil r => exact ⟨hopen, by simp, by simp, List.nodup_nil, by simp⟩
  | @cons r r' q qs e hq _ ih =>
      obtain ⟨-, hknown, hfree, hsup⟩ := exists_accepts_iff.mp ⟨e, hq⟩
      have hrest := ih hopen
      -- a later request finds its place free and other than the place of `q`
      have hother : ∀ q' ∈ qs, q'.place ≠ q.place ∧ r.instance? q'.cls q'.ty = none := by
        intro q' hq'
        have hfree' := hrest.isFree q' hq'
        rw [hq.instance?_insert] at hfree'
        by_cases hp : (q'.cls, q'.ty) = q.place
        · rw [if_pos hp] at hfree'
          cases hfree'
        · rw [if_neg hp] at hfree'
          exact ⟨hp, hfree'⟩
      constructor
      · exact hopen
      · rw [List.forall_mem_cons]
        have hrestKnown := hrest.known
        rw [classes_insert] at hrestKnown
        exact ⟨hknown, hrestKnown⟩
      · rw [List.forall_mem_cons]
        exact ⟨hfree, fun q' hq' => (hother q' hq').2⟩
      · rw [List.map_cons, List.nodup_cons]
        refine ⟨?_, hrest.nodup⟩
        rw [List.mem_map]
        rintro ⟨q', hq', hp⟩
        exact (hother q' hq').1 hp
      · rw [List.forall_mem_cons, List.map_cons]
        constructor
        · intro s hs
          exact .inl (hsup s hs)
        · intro q' hq' s hs
          have hs' := hrest.supplied q' hq' s (by rwa [superclass_insert])
          rw [hq.hasInstance_insert] at hs'
          rcases hs' with (hs' | hs') | hs'
          · exact .inr (hs' ▸ List.mem_cons_self)
          · exact .inl hs'
          · exact .inr (List.mem_cons_of_mem _ hs')

theorem Permits.perm (h : r.Permits qs) (hp : qs'.Perm qs) : r.Permits qs' where
  isOpen := h.isOpen
  known q hq := h.known q (hp.mem_iff.mp hq)
  isFree q hq := h.isFree q (hp.mem_iff.mp hq)
  nodup := (hp.map _).nodup_iff.mpr h.nodup
  supplied q hq s hs := by
    rw [(hp.map _).mem_iff]
    exact h.supplied q (hp.mem_iff.mp hq) s hs

/-- The first request of a permitted list is accepted if nothing that comes later supplies it. -/
theorem Permits.accepts (h : r.Permits (q :: qs)) (hself : ∀ c, ¬ r.Superclass c c)
    (hlate : ∀ q' ∈ qs, ¬ q'.Supplies r q) : ∃ e, r.Accepts q.cls q.ty q.record e := by
  have hq : q ∈ q :: qs := List.mem_cons_self
  rw [exists_accepts_iff]
  refine ⟨h.isOpen, h.known q hq, h.isFree q hq, ?_⟩
  intro s hs
  rcases h.supplied q hq s hs with hs' | hs'
  · exact hs'
  · obtain ⟨q', hq', hp⟩ := List.mem_map.mp hs'
    obtain ⟨rfl, hty⟩ : q'.cls = s ∧ q'.ty = q.ty := Prod.mk.inj hp
    rcases List.mem_cons.mp hq' with rfl | hq'
    · exact absurd hs (hself q'.cls)
    · exact absurd ⟨hty, hs⟩ (hlate q' hq')

theorem Permits.tail (h : r.Permits (q :: qs)) {e : ClassEntry}
    (hq : r.Accepts q.cls q.ty q.record e) : (r.insert q.cls q.ty q.record).Permits qs := by
  have hnodup := h.nodup
  rw [List.map_cons, List.nodup_cons] at hnodup
  constructor
  · exact h.isOpen
  · intro q' hq'
    rw [classes_insert]
    exact h.known q' (List.mem_cons_of_mem _ hq')
  · intro q' hq'
    have hne : (q'.cls, q'.ty) ≠ q.place := by
      intro hp
      exact hnodup.1 (List.mem_map.mpr ⟨q', hq', hp⟩)
    rw [hq.instance?_insert, if_neg hne]
    exact h.isFree q' (List.mem_cons_of_mem _ hq')
  · exact hnodup.2
  · intro q' hq' s hs
    rw [superclass_insert] at hs
    rw [hq.hasInstance_insert]
    rcases h.supplied q' (List.mem_cons_of_mem _ hq') s hs with hs' | hs'
    · exact .inl (.inr hs')
    · rcases List.mem_cons.mp hs' with hs' | hs'
      · exact .inl (.inl hs')
      · exact .inr hs'

theorem Permits.takes (h : r.Permits qs) (hself : ∀ c, ¬ r.Superclass c c)
    (horder : qs.Pairwise fun q q' => ¬ q'.Supplies r q) : ∃ r', r.Takes qs r' := by
  induction qs generalizing r with
  | nil => exact ⟨r, .nil r⟩
  | cons q qs ih =>
      obtain ⟨hlate, horder⟩ := List.pairwise_cons.mp horder
      obtain ⟨e, hq⟩ := h.accepts hself hlate
      obtain ⟨r', hr'⟩ := ih (h.tail hq) (by rwa [superclass_insert])
        (horder.imp fun {a b} hab => by rwa [Registration.Supplies, superclass_insert])
      exact ⟨r', .cons hq hr'⟩

end Registry

/-! ## What the steps do -/

namespace Registration

variable {q : Registration} {qs : List Registration} {b b' : Building} {r : Registry}

theorem run_of_accepts {e : ClassEntry} (h : b.registry.Accepts q.cls q.ty q.record e) :
    ∃ b', q.run b = .ok () b' ∧ b'.registry = b.registry.insert q.cls q.ty q.record := by
  have haccept := Registry.accept_eq_ok_iff.mpr ⟨e, h, rfl⟩
  simp only [run, Build.register, bind, EStateM.bind, Build.check_eq, haccept]
  exact ⟨_, rfl, rfl⟩

theorem accepts_of_run (h : q.run b = .ok () b') :
    ∃ e, b.registry.Accepts q.cls q.ty q.record e
      ∧ b'.registry = b.registry.insert q.cls q.ty q.record := by
  cases haccept : b.registry.accept q.cls q.ty q.record with
  | error err =>
      simp only [run, Build.register, bind, EStateM.bind, Build.check_eq, haccept] at h
      cases h
  | ok d =>
      obtain ⟨e, he, -⟩ := Registry.accept_eq_ok_iff.mp haccept
      obtain ⟨b'', hrun, hb''⟩ := run_of_accepts he
      cases hrun.symm.trans h
      exact ⟨e, he, hb''⟩

theorem takes_of_runAll (h : runAll qs b = .ok () b') : b.registry.Takes qs b'.registry := by
  induction qs generalizing b with
  | nil =>
      cases h
      exact .nil _
  | cons q qs ih =>
      cases hq : q.run b with
      | error err b₁ =>
          simp only [runAll, List.forM, bind, EStateM.bind, hq] at h
          cases h
      | ok u b₁ =>
          simp only [runAll, List.forM, bind, EStateM.bind, hq] at h
          obtain ⟨e, he, hb₁⟩ := accepts_of_run hq
          have hrest := ih h
          rw [hb₁] at hrest
          exact .cons he hrest

theorem runAll_of_takes (h : b.registry.Takes qs r) :
    ∃ b', runAll qs b = .ok () b' ∧ b'.registry = r := by
  induction qs generalizing b with
  | nil =>
      cases h
      exact ⟨b, rfl, rfl⟩
  | cons q qs ih =>
      cases h with
      | cons he hrest =>
          obtain ⟨b₁, hq, hb₁⟩ := run_of_accepts he
          rw [← hb₁] at hrest
          obtain ⟨b', hqs, hb'⟩ := ih hrest
          refine ⟨b', ?_, hb'⟩
          simp only [runAll, List.forM, bind, EStateM.bind, hq]
          exact hqs

end Registration

/-- If a list of requests is taken by an open registry, then so is every rearrangement in which no
request comes before one that supplies a superclass instance to it. Both end with the same classes,
and what is looked up is the same. -/
theorem registration_order_irrelevant (trace : Trace) (log : Array Invocation)
    (ops : List RegistryOp) (qs qs' : List Registration) (b₁ : Building) :
    let b := RegistryOp.runAll { trace, log } ops
    b.registry.isClosed = false → Registration.runAll qs b = .ok () b₁ → qs'.Perm qs →
    (qs'.Pairwise fun q q' => ¬ q'.Supplies b.registry q) →
    ∃ b₂, Registration.runAll qs' b = .ok () b₂
      ∧ b₂.registry.classes = b₁.registry.classes ∧ b₂.registry.ids = b₁.registry.ids
      ∧ ∀ c ty, b₂.registry.lookup c ty = b₁.registry.lookup c ty := by
  intro b hopen hrun hperm horder
  have hb : b.registry.Coherent := RegistryOp.coherent_runAll ops Registry.coherent_empty
  have hself : ∀ c, ¬ b.registry.Superclass c c := by
    rintro c ⟨e, he, hc⟩
    exact Nat.lt_irrefl _ (hb.superclass_lt he c hc)
  have htakes := Registration.takes_of_runAll hrun
  obtain ⟨r₂, htakes'⟩ := ((htakes.permits hopen).perm hperm).takes hself horder
  obtain ⟨b₂, hrun', rfl⟩ := Registration.runAll_of_takes htakes'
  have hclasses : b₂.registry.classes = b₁.registry.classes :=
    htakes'.classes_eq.1.trans htakes.classes_eq.1.symm
  have hids : b₂.registry.ids = b₁.registry.ids :=
    htakes'.classes_eq.2.trans htakes.classes_eq.2.symm
  have hinstance : ∀ c ty, b₂.registry.instance? c ty = b₁.registry.instance? c ty := by
    intro c ty
    apply Option.ext
    intro record
    rw [htakes'.instance?_eq_some_iff, htakes.instance?_eq_some_iff, hperm.mem_iff]
  refine ⟨b₂, hrun', hclasses, hids, ?_⟩
  intro c ty
  rw [Registry.lookup_eq, Registry.lookup_eq, hclasses, hinstance]

/-- The list instance of `Applicative` waits for that of `Functor`. The tuple instance of `Functor`
may come before, between or after. -/
theorem registration_order_irrelevant_tower :
    let b := RegistryOp.runAll {}
      [.declare { name := "Functor", methods := ["fmap"] },
        .declare { name := "Applicative", superclasses := [⟨0⟩] }]
    let functorList : Registration := ⟨⟨0⟩, .list, .ofList [("fmap", .unit)]⟩
    let functorTuple : Registration := ⟨⟨0⟩, .tuple, .ofList [("fmap", .unit)]⟩
    let applicativeList : Registration := ⟨⟨1⟩, .list, .empty⟩
    functorList.Supplies b.registry applicativeList
      ∧ ∃ b₁, Registration.runAll [functorList, applicativeList, functorTuple] b = .ok () b₁
      ∧ ∃ b₂, Registration.runAll [functorTuple, functorList, applicativeList] b = .ok () b₂
      ∧ b₂.registry.classes = b₁.registry.classes ∧ b₂.registry.ids = b₁.registry.ids
      ∧ ∀ c ty, b₂.registry.lookup c ty = b₁.registry.lookup c ty := by
  intro b functorList functorTuple applicativeList
  have hlate : ¬ applicativeList.Supplies b.registry functorList := by
    rintro ⟨-, e, he, hs⟩
    cases he
    cases hs
  have htuple : ∀ q : Registration, q.ty = .list → ¬ q.Supplies b.registry functorTuple := by
    rintro q hq ⟨hty, -⟩
    cases hq.symm.trans hty
  refine ⟨⟨rfl, _, rfl, List.mem_singleton.mpr rfl⟩, _, rfl, ?_⟩
  apply registration_order_irrelevant {} #[] _ [functorList, applicativeList, functorTuple]
  · rfl
  · rfl
  · exact (List.perm_append_singleton functorTuple [functorList, applicativeList]).symm
  · show List.Pairwise (fun q q' : Registration => ¬ q'.Supplies b.registry q) _
    simp [htuple functorList rfl, htuple applicativeList rfl, hlate]

end Overload
