import Overload.Proofs.Currying
import Overload.Proofs.Moments
import Overload.Proofs.RegistrationOrder
import Overload.Standard

/-!
# Methods by reference

A reference to a method is checked when it is made: the class must be there and have the method.
Since classes never go away, and every record has all methods of its class, a call through the
reference cannot miss the method later. What can still go wrong with a complete call is listed by
`MethodRef.Resolves`: too many arguments, none at the index to dispatch on, and a type without an
instance. The index may be any word, also the last one, where the fault asks for no arguments at all
(`ArgIndex.needed_eq`).

The methods of the standard classes are made without that check. They pass it all the same, since
each names a method that its class was declared with. `Build.Secures` carries this from the
declaration through the rest of the installation and through whatever happens to the registry
later.
-/

namespace Overload

/-! ## The methods of a registry -/

/-- The class is declared, with a method of this name. -/
def Registry.HasMethod (r : Registry) (c : ClassId) (name : String) : Prop :=
  ∃ k, r.classes[c.index]? = some k ∧ name ∈ k.2.methods

namespace Registry

variable {r : Registry} {c : ClassId} {name : String}

theorem hasMethod_extend (d : ClassDecl) (hname : name ∈ d.methods) :
    (r.extend d).HasMethod ⟨r.entries.length⟩ name :=
  ⟨_, getElem?_classes.mpr ⟨_, getElem?_extend.mpr (.inr ⟨rfl, rfl⟩), rfl⟩, hname⟩

theorem HasMethod.extend (h : r.HasMethod c name) (d : ClassDecl) :
    (r.extend d).HasMethod c name := by
  obtain ⟨k, hk, hname⟩ := h
  obtain ⟨e, he, rfl⟩ := getElem?_classes.mp hk
  exact ⟨_, getElem?_classes.mpr ⟨e, getElem?_extend.mpr (.inl he), rfl⟩, hname⟩

theorem HasMethod.runAll (ops : List RegistryOp) {b : Building} (h : b.registry.HasMethod c name) :
    (RegistryOp.runAll b ops).registry.HasMethod c name := by
  induction ops generalizing b with
  | nil => exact h
  | cons op ops ih =>
      refine ih ?_
      rcases op.run_cases b with heq | heq | ⟨d, -, heq⟩ | ⟨c', ty, record, e, -, heq⟩
      · rwa [heq]
      · rw [heq]
        exact h
      · rw [heq]
        exact h.extend d
      · rw [heq, HasMethod, classes_insert]
        exact h

/-- A record of a class has each of its methods. -/
theorem Coherent.get?_of_hasMethod (hr : r.Coherent) (h : r.HasMethod c name) {ty : TypeCon}
    {record : MethodRecord} (hrecord : r.instance? c ty = some record) :
    ∃ imp, record.get? name = some imp := by
  obtain ⟨k, hk, hname⟩ := h
  obtain ⟨e, he, rfl⟩ := getElem?_classes.mp hk
  rw [instance?, he, Option.bind_some] at hrecord
  obtain ⟨before, after, hinstances, -⟩ := List.lookup_eq_some_iff.mp hrecord
  have hnames := hr.names_iff he (ty, record) (by simp [hinstances])
  exact Option.isSome_iff_exists.mp (MethodRecord.isSome_get?_iff.mpr ((hnames name).mpr hname))

end Registry

/-! ## What an installation secures -/

/-- The steps are operations of the registry, and what they answer has the property from then on. -/
def Build.Secures (x : Build α) (P : α → Registry → Prop) : Prop :=
  ∀ b a b', x b = .ok a b' → ∃ ops, b' = RegistryOp.runAll b ops
    ∧ ∀ later, P a (RegistryOp.runAll b' later).registry

namespace Build

variable {x : Build α} {f : α → Build β} {P : α → Registry → Prop} {Q : β → Registry → Prop}

theorem Secures.mono {P' : α → Registry → Prop} (hx : Secures x P) (h : ∀ a r, P a r → P' a r) :
    Secures x P' := by
  intro b a b' hrun
  obtain ⟨ops, hops, ha⟩ := hx b a b' hrun
  exact ⟨ops, hops, fun later => h a _ (ha later)⟩

theorem Secures.pure {a : α} (h : ∀ r, P a r) : Secures (Pure.pure a) P := by
  intro b a' b' hrun
  cases hrun
  exact ⟨[], rfl, fun later => h _⟩

theorem Secures.bind (hx : Secures x P) (hf : ∀ a, Secures (f a) fun c r => P a r → Q c r) :
    Secures (x >>= f) Q := by
  intro b c b' hrun
  cases hfirst : x b with
  | error err b₁ => cases hrun.symm.trans (bind_of_error hfirst)
  | ok a b₁ =>
      rw [bind_of_ok hfirst] at hrun
      obtain ⟨ops₁, rfl, ha⟩ := hx b a b₁ hfirst
      obtain ⟨ops₂, rfl, hc⟩ := hf a _ c b' hrun
      have happend : ∀ later, RegistryOp.runAll (RegistryOp.runAll b ops₁) later
          = RegistryOp.runAll b (ops₁ ++ later) := fun later => List.foldl_append.symm
      refine ⟨ops₁ ++ ops₂, happend ops₂, fun later => hc later ?_⟩
      have hlater := ha (ops₂ ++ later)
      rwa [RegistryOp.runAll, List.foldl_append] at hlater

theorem secures_declare (d : ClassDecl) :
    Secures (Build.declare d) fun c r => ∀ name ∈ d.methods, r.HasMethod c name := by
  intro b c b' hrun
  have hafter : b' = RegistryOp.runAll b [.declare d] := by
    show b' = b.after (Build.declare d)
    rw [Building.after, hrun]
  refine ⟨_, hafter, fun later name hname => Registry.HasMethod.runAll later ?_⟩
  simp only [Build.declare, Bind.bind, EStateM.bind, Build.check_eq] at hrun
  cases hd : b.registry.declare d with
  | error err =>
      rw [hd] at hrun
      cases hrun
  | ok q =>
      obtain ⟨-, hc, hr⟩ := Registry.declare_eq_ok_iff.mp hd
      rw [hd] at hrun
      cases hrun
      rw [hc, hr]
      exact Registry.hasMethod_extend d hname

theorem secures_register (c : ClassId) (ty : TypeCon) (record : MethodRecord) :
    Secures (Build.register c ty record) fun _ _ => True := by
  intro b u b' hrun
  refine ⟨[.register c ty record], ?_, fun _ => trivial⟩
  show b' = b.after (Build.register c ty record)
  rw [Building.after, hrun]

theorem Secures.forM {xs : List ι} {f : ι → Build PUnit}
    (hf : ∀ i, Secures (f i) fun _ _ => True) : Secures (xs.forM f) fun _ _ => True := by
  induction xs with
  | nil => exact .pure fun _ => trivial
  | cons i xs ih => exact (hf i).bind fun _ => ih.mono fun _ _ _ _ => trivial

end Build

namespace Standard

theorem secures_declare (name : String) (superclasses : List ClassId) (ops : List Operation)
    (derivable : Bool) : Build.Secures (declare name superclasses ops derivable) fun c r =>
      ∀ op ∈ ops, r.HasMethod c op.name :=
  (Build.secures_declare _).mono fun _ _ h _ hop => h _ (List.mem_map_of_mem hop)

theorem secures_register (cls : ClassId) (ops : List Operation) (types : List TypeCon) :
    Build.Secures (register cls ops types) fun _ _ => True :=
  .forM fun ty => Build.secures_register cls ty (record ops)

/-- Each of the standard methods refers to a method of its class. -/
theorem secures_install : Build.Secures install fun std r => ∀ name v, (name, v) ∈ std.methods →
    ∃ ref, v = .method ref [] ∧ r.HasMethod ref.cls ref.name := by
  refine (secures_declare _ _ _ _).bind fun shows => (secures_declare _ _ _ _).bind fun eq =>
    (secures_declare _ _ _ _).bind fun ord => (secures_declare _ _ _ _).bind fun num =>
    (secures_declare _ _ _ _).bind fun functor => (secures_declare _ _ _ _).bind fun applicative =>
    (secures_declare _ _ _ _).bind fun monad => ?_
  have hdata : Build.Secures (data.forM fun ty => do
      register shows [.display] [ty]
      register eq [.eq] [ty]) fun _ _ => True := by
    refine .forM fun ty => (secures_register _ _ _).bind fun _ => ?_
    exact (secures_register _ _ _).mono fun _ _ _ _ => trivial
  refine hdata.bind fun _ => (secures_register _ _ _).bind fun _ =>
    (secures_register _ _ _).bind fun _ => (secures_register _ _ _).bind fun _ =>
    (secures_register _ _ _).bind fun _ => (secures_register _ _ _).bind fun _ => .pure ?_
  intro r _ _ _ _ _ _ hmonad happlicative hfunctor hnum hord heq hshow name v hv
  simp only [methods, List.mem_cons, List.not_mem_nil, or_false, Prod.mk.injEq] at hv
  rcases hv with ⟨-, rfl⟩ | ⟨-, rfl⟩ | ⟨-, rfl⟩ | ⟨-, rfl⟩ | ⟨-, rfl⟩ | ⟨-, rfl⟩ | ⟨-, rfl⟩
  · exact ⟨_, rfl, hfunctor .fmap (by simp)⟩
  · exact ⟨_, rfl, hmonad .bind (by simp)⟩
  · exact ⟨_, rfl, happlicative .ap (by simp)⟩
  · exact ⟨_, rfl, hshow .display (by simp)⟩
  · exact ⟨_, rfl, heq .eq (by simp)⟩
  · exact ⟨_, rfl, hord .compare (by simp)⟩
  · exact ⟨_, rfl, hnum .add (by simp)⟩

end Standard

/-- The values that stand for methods in an engine: those that it gives out, and those of the
standard classes if they have been installed in its registry. -/
inductive Engine.Gives (e : Engine) : Value → Prop
  | method {ref : MethodRef} {v : Value} : e.method ref = .ok v → e.Gives v
  | standard {b b' : Building} {std : Standard} (later : List RegistryOp) {name : String}
      {v : Value} : Standard.install b = .ok std b' →
      e.registry = (RegistryOp.runAll b' later).registry → (name, v) ∈ std.methods → e.Gives v

/-- What an engine gives out is the reference as it was asked for. -/
theorem Engine.of_method_eq_ok {e : Engine} {ref : MethodRef} {v : Value}
    (h : e.method ref = .ok v) :
    v = .method ref [] ∧ e.registry.HasMethod ref.cls ref.name := by
  rw [Engine.method, Registry.decl] at h
  obtain ⟨d, hd, h⟩ := bind_eq_ok_iff.mp h
  obtain ⟨entry, hentry, hd⟩ := bind_eq_ok_iff.mp hd
  cases hd
  split at h
  · next hname =>
      cases h
      have hentry := Registry.entry_eq_ok_iff.mp hentry
      refine ⟨rfl, _, Registry.getElem?_classes.mpr ⟨entry, hentry, rfl⟩, ?_⟩
      simpa [ClassDecl.hasMethod] using hname
  · cases h

theorem Engine.Gives.hasMethod {e : Engine} {ref : MethodRef} (h : e.Gives (.method ref [])) :
    e.registry.HasMethod ref.cls ref.name := by
  cases h with
  | method hmethod =>
      obtain ⟨hv, hname⟩ := of_method_eq_ok hmethod
      cases hv
      exact hname
  | @standard b b' std later name _ hinstall hregistry hmem =>
      obtain ⟨-, -, hmethods⟩ := Standard.secures_install b std b' hinstall
      obtain ⟨ref', hv, hname⟩ := hmethods later name _ hmem
      cases hv
      rwa [hregistry]

/-! ## Complete calls -/

/-- What a complete call of a method comes to before any code runs: a fault, or the implementation
to run. -/
inductive MethodRef.Resolves (r : Registry) (ref : MethodRef) (args : List Value) :
    Except Fault Value → Prop
  | excess : ref.arity < args.length →
      ref.Resolves r args (.error (.arity ref.arity args.length))
  /-- The fault counts, in a word, the arguments that would reach the index. -/
  | noTarget : args.length = ref.arity → args.length ≤ ref.dispatchOn.toNat →
      ref.Resolves r args (.error (.arity ref.dispatchOn.needed args.length))
  | missing {target : Value} {k : ClassId × ClassDecl} : args.length = ref.arity →
      args[ref.dispatchOn.toNat]? = some target → r.classes[ref.cls.index]? = some k →
      r.instance? ref.cls target.con = none →
      ref.Resolves r args (.error (.cls (.missingInstance k.2.name target.con.name)))
  | found {target imp : Value} {record : MethodRecord} : args.length = ref.arity →
      args[ref.dispatchOn.toNat]? = some target → r.instance? ref.cls target.con = some record →
      record.get? ref.name = some imp → ref.Resolves r args (.ok imp)

namespace MethodRef

variable {r : Registry} {ref : MethodRef} {args : List Value} {outcome : Except Fault Value}

theorem exists_resolves (hr : r.Coherent) (hmethod : r.HasMethod ref.cls ref.name)
    (hfull : ref.arity ≤ args.length) : ∃ outcome, ref.Resolves r args outcome := by
  rcases Nat.lt_or_eq_of_le hfull with hlt | hlen
  · exact ⟨_, .excess hlt⟩
  cases htarget : args[ref.dispatchOn.toNat]? with
  | none => exact ⟨_, .noTarget hlen.symm (List.getElem?_eq_none_iff.mp htarget)⟩
  | some target =>
      cases hrecord : r.instance? ref.cls target.con with
      | none =>
          obtain ⟨k, hk, -⟩ := hmethod
          exact ⟨_, .missing hlen.symm htarget hk hrecord⟩
      | some record =>
          obtain ⟨imp, himp⟩ := hr.get?_of_hasMethod hmethod hrecord
          exact ⟨_, .found hlen.symm htarget hrecord himp⟩

/-- Of the argument to dispatch on only the constructor matters. -/
theorem Resolves.set (h : ref.Resolves r args outcome) {target target' : Value}
    (htarget : args[ref.dispatchOn.toNat]? = some target) (hcon : target'.con = target.con) :
    ref.Resolves r (args.set ref.dispatchOn.toNat target') outcome := by
  have hlt := (List.getElem?_eq_some_iff.mp htarget).1
  have hset : (args.set ref.dispatchOn.toNat target')[ref.dispatchOn.toNat]? = some target' :=
    List.getElem?_set_self hlt
  have hlen : (args.set ref.dispatchOn.toNat target').length = args.length := List.length_set
  cases h with
  | excess hexcess =>
      rw [← hlen] at hexcess ⊢
      exact .excess hexcess
  | noTarget harity hle => exact absurd hlt (Nat.not_lt.mpr hle)
  | missing harity htarget' hk hnone =>
      cases htarget.symm.trans htarget'
      rw [← hcon] at hnone ⊢
      exact .missing (hlen.trans harity) hset hk hnone
  | found harity htarget' hrecord himp =>
      cases htarget.symm.trans htarget'
      rw [← hcon] at hrecord
      exact .found (hlen.trans harity) hset hrecord himp

end MethodRef

theorem Engine.callInstance_of_record {apply : Apply} {e : Engine} {cls : ClassId} {ty : TypeCon}
    {name : String} {record : MethodRecord} {imp : Value} {args : List Value}
    (hrecord : e.registry.instance? cls ty = some record) (himp : record.get? name = some imp) :
    e.callInstance apply cls ty name args = e.traced (do
      Run.report .dispatch (.dispatched name ty.name)
      apply e imp args) := by
  rw [Engine.callInstance, Registry.lookup_eq_ok_iff.mpr hrecord]
  refine congrArg e.traced (funext fun m => ?_)
  have hfound : (liftM (.ok record : Except ClassError MethodRecord) : Run MethodRecord) m
      = .ok record m := rfl
  rw [bind_of_ok hfound, himp]

namespace Host

variable {h : Host} {apply : Apply} {e : Engine} {ref : MethodRef} {args : List Value}

theorem applyWith_method (hlen : args.length = ref.arity) {target : Value}
    (htarget : args[ref.dispatchOn.toNat]? = some target) :
    h.applyWith apply e (.method ref []) args
      = e.callInstance apply ref.cls target.con ref.name args := by
  have happly : h.applyWith apply e (.method ref []) args
      = e.traced (e.callInstance apply ref.cls target.con ref.name args) := by
    simp [applyWith, Engine.callMethod, hlen, htarget]
  rw [happly, Engine.callInstance, e.traced_traced]

/-- A fault of the resolution is the fault of the call, with the machine as it was. -/
theorem applyWith_of_resolves_error {fault : Fault}
    (hres : ref.Resolves e.registry args (.error fault)) (m : Machine) :
    h.applyWith apply e (.method ref []) args m = .error fault m := by
  cases hres with
  | excess hlt =>
      have hlt : ref.arity < (Value.method ref []).held.length + args.length := by
        simpa [Value.held] using hlt
      rw [applyWith_excess args m rfl hlt]
      simp [Value.held]
  | noTarget hlen hle =>
      simp only [applyWith, List.nil_append, hlen, Nat.lt_irrefl, if_false, Engine.callMethod,
        List.getElem?_eq_none hle]
      rfl
  | @missing target k hlen htarget hk hnone =>
      have hlookup : e.registry.lookup ref.cls target.con
          = .error (.missingInstance k.2.name target.con.name) := by
        rw [Registry.lookup_eq, hk, hnone]
      rw [applyWith_method hlen htarget, Engine.callInstance, hlookup]
      rfl

/-- Otherwise the call is one of the implementation, with the same arguments. All that has happened
before it is an event. -/
theorem applyWith_of_resolves_ok {imp : Value} (hres : ref.Resolves e.registry args (.ok imp))
    (m : Machine) :
    ∃ m', m'.forget = m.forget
      ∧ h.applyWith apply e (.method ref []) args m = e.traced (apply e imp args) m' := by
  cases hres with
  | @found target _ record hlen htarget hrecord himp =>
      let inner := some e.settings.trace
      let event := Event.dispatched ref.name target.con.name
      let m' := if (m.setActive inner).enabled .dispatch
        then { m with session := m.session.emit event } else m
      have hforget : m'.forget = m.forget ∧ m'.session.trace.active = m.session.trace.active := by
        simp only [m']
        split <;> exact ⟨rfl, rfl⟩
      have hreport : Run.report .dispatch event (m.setActive inner)
          = .ok () (m'.setActive inner) := by
        show EStateM.Result.ok () (if _ then _ else _) = _
        simp only [m']
        split <;> rfl
      refine ⟨m', hforget.1, ?_⟩
      rw [applyWith_method hlen htarget, Engine.callInstance_of_record hrecord himp]
      rw [Engine.traced_eq, Engine.traced_eq, bind_of_ok hreport, hforget.2]

/-- A call leaves the switches of its engine in force for the calls nested in it. -/
theorem traced_applyWithin (n : Nat) (func : Value) :
    e.traced (h.applyWithin n e func args) = h.applyWithin n e func args := by
  cases n with
  | zero => rfl
  | succ n => exact e.traced_traced _

/-- The ways to call functions in an engine, each with the way in which the call of a method calls
the implementation. -/
inductive Nests (h : Host) (e : Engine) :
    (Value → List Value → Run Value) → (Value → List Value → Run Value) → Prop
  | outer : h.Nests e (h.apply e)
      fun func args => e.occupied (h.applyWithin (depthLimit - 1) e func args)
  | inner (depth : Nat) : h.Nests e (h.applyWithin (depth + 1) e) (h.applyWithin depth e)

variable {call next : Value → List Value → Run Value}

theorem Nests.calls (hcall : h.Nests e call next) : h.Calls e call := by
  cases hcall with
  | outer => exact .outer
  | inner depth => exact .inner depth

theorem Nests.of_resolves_error (hcall : h.Nests e call next) {fault : Fault}
    (hres : ref.Resolves e.registry args (.error fault)) (m : Machine) :
    call (.method ref []) args m = .error fault m := by
  cases hcall with
  | outer =>
      rw [Host.apply, Engine.occupied_eq]
      exact congrArg _
        (applyWith_of_resolves_error (h := h) hres { m with running := e.name :: m.running })
  | inner depth => exact applyWith_of_resolves_error hres m

theorem Nests.of_resolves_ok (hcall : h.Nests e call next) {imp : Value}
    (hres : ref.Resolves e.registry args (.ok imp)) (m : Machine) :
    ∃ m', m'.forget = m.forget ∧ call (.method ref []) args m = next imp args m' := by
  have hinner : ∀ (n : Nat) (m : Machine), ∃ m', m'.forget = m.forget
      ∧ h.applyWithin (n + 1) e (.method ref []) args m = h.applyWithin n e imp args m' := by
    intro n m
    rw [← traced_applyWithin n imp]
    exact applyWith_of_resolves_ok hres m
  cases hcall with
  | inner depth => exact hinner depth m
  | outer =>
      obtain ⟨m', hm', hrun⟩ := hinner (depthLimit - 1) { m with running := e.name :: m.running }
      have hrunning : m'.running = e.name :: m.running := congrArg Machine.running hm'
      refine ⟨{ m' with running := m.running }, ?_, ?_⟩
      · show { m'.forget with running := m.running } = m.forget
        rw [hm']
        rfl
      · show e.occupied (h.nested e (.method ref []) args) m
          = e.occupied (h.applyWithin (depthLimit - 1) e imp args) { m' with running := m.running }
        have hback : { m' with running := e.name :: m.running } = m' := by rw [← hrunning]
        rw [Engine.occupied_eq, Engine.occupied_eq, hback]
        exact congrArg _ hrun

end Host

/-- In an engine over a registry that is built from nothing, a method that the engine gives out or
that is one of the standard ones is applied to its arguments, in whatever groups. The complete call
fails for one of three reasons: too many arguments, none to dispatch on, or no instance for the
constructor of that argument. Otherwise it is a call, with all the arguments in order, of what is
registered under the name of the method for that constructor, and that is the same for all variants
of a data type. -/
theorem method_call_resolves {trace : Trace} {log : Array Invocation} {ops : List RegistryOp}
    {h : Host} {e : Engine} (hr : e.registry = (RegistryOp.runAll { trace, log } ops).registry)
    {ref : MethodRef} (hgives : e.Gives (.method ref []))
    {call next : Value → List Value → Run Value} (hcall : h.Nests e call next)
    {groups : List (List Value)} (hne : groups ≠ [])
    (hcut : ∀ k, 0 < k → k < groups.length → (groups.take k).flatten.length < ref.arity)
    (hfull : ref.arity ≤ groups.flatten.length) (m : Machine) :
    ((∃ fault, ref.Resolves e.registry groups.flatten (.error fault)
        ∧ ∃ m', m'.forget = m.forget
          ∧ groups.foldlM call (.method ref []) m = .error fault m')
      ∨ ∃ imp, ref.Resolves e.registry groups.flatten (.ok imp)
        ∧ ∃ m', m'.forget = m.forget
          ∧ groups.foldlM call (.method ref []) m = next imp groups.flatten m')
    ∧ ∀ args outcome type variant variant' fields fields',
        args[ref.dispatchOn.toNat]? = some (.data type variant fields) →
        ref.Resolves e.registry args outcome →
        ref.Resolves e.registry (args.set ref.dispatchOn.toNat (.data type variant' fields'))
          outcome := by
  have hcoherent : e.registry.Coherent := by
    rw [hr]
    exact RegistryOp.coherent_runAll ops Registry.coherent_empty
  refine ⟨?_, fun args outcome type variant variant' fields fields' htarget hres =>
    hres.set htarget rfl⟩
  -- the groups before the last one are held, and the last one completes the call
  have hinit : groups.dropLast = []
      ∨ (Value.method ref []).held.length + groups.dropLast.flatten.length < ref.arity := by
    rcases Nat.eq_zero_or_pos (groups.length - 1) with hzero | hpos
    · left
      rw [List.dropLast_eq_take, hzero, List.take_zero]
    · right
      rw [List.dropLast_eq_take]
      simpa [Value.held] using hcut _ hpos (by omega)
  obtain ⟨m₁, hall, hm₁⟩ := hcall.calls.curried.foldlM_eq rfl hinit (groups.getLast hne) m
  rw [List.dropLast_concat_getLast] at hall
  obtain ⟨outcome, hres⟩ := MethodRef.exists_resolves hcoherent hgives.hasMethod hfull
  cases outcome with
  | error fault => exact .inl ⟨fault, hres, m₁, hm₁, hall.trans (hcall.of_resolves_error hres m₁)⟩
  | ok imp =>
      obtain ⟨m₂, hm₂, hrun⟩ := hcall.of_resolves_ok hres m₁
      exact .inr ⟨imp, hres, m₂, hm₂.trans hm₁, hall.trans hrun⟩

/-- The standard `fmap` looks at its second argument, which comes in a group of its own. There is no
instance for integers. A `show` that looks at the last index there is has no argument there, and the
number of arguments that it would need has run over. -/
theorem method_call_resolves_standard :
    ∃ std b', Standard.install {} = .ok std b'
      ∧ let e : Engine := { name := "e", supply := 0, registry := b'.registry }
        let fmap : MethodRef := { cls := std.functor, name := "fmap", arity := 2, dispatchOn := 1 }
        let groups : List (List Value) := [[.unit], [.int 1]]
        let last : MethodRef :=
          { cls := std.shows, name := "show", arity := 1, dispatchOn := 18446744073709551615 }
        (∃ ops, e.registry = (RegistryOp.runAll {} ops).registry)
          ∧ e.Gives (.method fmap []) ∧ e.Gives (.method last [])
          ∧ ∀ (h : Host) (m : Machine),
            (∃ m', m'.forget = m.forget ∧ groups.foldlM (h.apply e) (.method fmap []) m
              = .error (.cls (.missingInstance "Functor" "Int")) m')
            ∧ ∃ m', m'.forget = m.forget ∧ [[.int 1]].foldlM (h.apply e) (.method last []) m
              = .error (.arity 0 1) m' := by
  obtain ⟨std, b', hinstall, hfunctor, hnone, hname, hshow⟩ :
      Succeeds (Standard.install {}) fun std b' =>
        std.functor = ⟨4⟩ ∧ b'.registry.hasInstance ⟨4⟩ .int = false
          ∧ b'.registry.classes[4]?.map (·.2.name) = some "Functor"
          ∧ (Engine.method { name := "e", supply := 0, registry := b'.registry }
            { cls := std.shows, name := "show", arity := 1
              dispatchOn := 18446744073709551615 }).isOk = true := by decide +kernel
  refine ⟨std, b', hinstall, ?_⟩
  intro e fmap groups last
  have hfmap : e.Gives (.method fmap []) := .standard [] hinstall rfl List.mem_cons_self
  have hlast : e.Gives (.method last []) := by
    cases hmethod : e.method last with
    | error err =>
        rw [show (e.method last).isOk = false from hmethod ▸ rfl] at hshow
        cases hshow
    | ok v =>
        obtain ⟨rfl, -⟩ := Engine.of_method_eq_ok hmethod
        exact .method hmethod
  obtain ⟨ops, hops, -⟩ := Standard.secures_install {} std b' hinstall
  have hr : e.registry = (RegistryOp.runAll {} ops).registry :=
    congrArg Building.registry hops
  refine ⟨⟨ops, hr⟩, hfmap, hlast, fun h m => ⟨?_, ?_⟩⟩
  · have hcut : ∀ k, 0 < k → k < groups.length → (groups.take k).flatten.length < 2 := by
      intro k hpos hlt
      have hlen : groups.length = 2 := rfl
      obtain rfl : k = 1 := by omega
      decide
    have hclass : fmap.cls.index = 4 := congrArg ClassId.index hfunctor
    rcases (method_call_resolves hr hfmap (h := h) .outer (by decide) hcut (Nat.le_refl 2) m).1
      with ⟨fault, hres, m', hm', hrun⟩ | ⟨imp, hres, -⟩
    · refine ⟨m', hm', hrun.trans ?_⟩
      cases hres with
      | excess hlt => exact absurd hlt (Nat.lt_irrefl 2)
      | noTarget hlen hle => exact absurd hle (Nat.not_succ_le_self 1)
      | @missing target k hlen htarget hk hmissing =>
          obtain rfl := Option.some.inj htarget
          rw [hclass] at hk
          rw [hk] at hname
          have hk : k.2.name = "Functor" := Option.some.inj hname
          rw [hk]
          rfl
    · cases hres with
      | found hlen htarget hrecord himp =>
          obtain rfl := Option.some.inj htarget
          have hsome : b'.registry.hasInstance std.functor .int = true :=
            Option.isSome_iff_exists.mpr ⟨_, hrecord⟩
          rw [hfunctor, hnone] at hsome
          cases hsome
  · have hcut : ∀ k, 0 < k → k < [[Value.int 1]].length →
        (List.take k [[Value.int 1]]).flatten.length < 1 := by
      intro k hpos hlt
      exact absurd hlt (Nat.not_lt.mpr hpos)
    have hnowhere : ([Value.int 1])[last.dispatchOn.toNat]? = none := rfl
    have hneeded : last.dispatchOn.needed = 0 := (ArgIndex.needed_eq _).trans (if_pos rfl)
    rcases (method_call_resolves hr hlast (h := h) .outer (by decide) hcut (Nat.le_refl 1) m).1
      with ⟨fault, hres, m', hm', hrun⟩ | ⟨imp, hres, -⟩
    · refine ⟨m', hm', hrun.trans ?_⟩
      cases hres with
      | excess hlt => exact absurd hlt (Nat.lt_irrefl 1)
      | noTarget hlen hle =>
          rw [hneeded]
          rfl
      | missing hlen htarget hk hmissing => cases hnowhere.symm.trans htarget
    · cases hres with
      | found hlen htarget hrecord himp => cases hnowhere.symm.trans htarget

end Overload
